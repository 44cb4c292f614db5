import Rtmap.Engine.ReplayBatches
import Rtmap.Engine.StreamLog

/-!
# A recording replayed

A live session records what it hands to the engine: every event as it came, every register
snapshot as it was decoded. The replay of the file leaves the traces of the session. The
memory of the target and what the DWARF reader finds for a type may differ between the two.
-/
namespace Rtmap.Engine
open Rtmap.Ring Recording Streams

/-- What the traces depend on of the surroundings. -/
structure Host.TracesAlike (h h' : Host) : Prop where
  orders : h.orders = h'.orders
  resolveExpr : h.resolveExpr = h'.resolveExpr

section Hosts
variable {h h' : Host} {ev : Event}

theorem untyped_pointer (h : Host) (ev : Event) (i : Interval) (s : State) :
    (Write.pointer h ev i s).untyped = (Write.edge h ev i s).untyped := by
  have hpointee (name typeName : String) (s : State) :
      (Write.stampPointee h ev name typeName s).untyped = s.untyped := by
    have hkept := congrArg Kept.dwarf (Write.kept_stampPointee h ev s name typeName)
    obtain ⟨m, log, info, topo, heq⟩ := Write.stampPointee_eq h ev s name typeName
    rw [heq] at hkept ⊢
    exact untyped_of_static (s := { s with
      world := { s.world with stm := m, typeEpochs := log }, topo := topo }) hkept
  rw [Write.pointer]
  dsimp only
  split
  · rfl
  · split
    · exact hpointee _ _ _
    · rfl

theorem untyped_node_hosts (hh : h.TracesAlike h') (s : State) :
    (Write.node h ev s).untyped = (Write.node h' ev s).untyped := by
  have hpointer (i : Interval) (s : State) :
      (Write.pointer h ev i s).untyped = (Write.pointer h' ev i s).untyped := by
    rw [untyped_pointer, untyped_pointer, Write.edge, Write.edge, Write.target, Write.target,
      hh.orders]
  rw [Write.node, Write.node, hh.orders]
  split
  · rfl
  · split
    · exact hpointer _ _
    · rfl

/-- An event leaves the same traces in such surroundings. -/
theorem sameTraces_hosts (hh : h.TracesAlike h') (ev : Event) (s : State) :
    SameTraces (processEvent h ev s) (processEvent h' ev s) := by
  constructor
  · cases hkind : kindOf ev with
    | write =>
        rw [processEvent_write _ _ _ hkind, processEvent_write _ _ _ hkind, untyped_node_hosts hh]
        refine untyped_node ?_
        rw [untyped_beforeNode, untyped_beforeNode]
    | alloc => simp only [processEvent, processKind, hkind, untyped_processAlloc]
    | call =>
        simp only [processEvent, processKind, hkind, processCall, Call.enter, Call.localAddr,
          resolveLocation, hh.resolveExpr]
    | moduleLoad =>
        simp only [processEvent, processKind, hkind, processModuleLoad, populateGlobals, hh.orders]
    | cacheMiss => simp only [processEvent, processKind, hkind, hh.orders]
    | _ => simp only [processEvent, processKind, hkind]
  · have hshadow (k : Host) := shadowRegs_processEvent k ev s
    exact bareRegs_of_shadowRegs ((hshadow h).trans (hshadow h').symm)

theorem SameTraces.symm {s t : State} (hst : SameTraces s t) : SameTraces t s where
  untyped := hst.untyped.symm
  registers := hst.registers.symm

theorem SameTraces.trans {s t u : State} (hst : SameTraces s t) (htu : SameTraces t u) :
    SameTraces s u where
  untyped := hst.untyped.trans htu.untyped
  registers := hst.registers.trans htu.registers

theorem SameTraces.event {s t : State} (hst : SameTraces s t) (hh : h.TracesAlike h')
    (ev : Event) : SameTraces (Rtmap.Engine.processEvent h ev s)
      (Rtmap.Engine.processEvent h' ev t) := by
  have hsame : SameTraces (Rtmap.Engine.processEvent h ev s) (Rtmap.Engine.processEvent h ev t) :=
    ⟨untyped_processEvent hst.untyped, bareRegs_processEvent hst.registers hst.untyped⟩
  exact hsame.trans (sameTraces_hosts hh ev t)

theorem SameTraces.tickInsn {s t : State} (h : SameTraces s t) :
    SameTraces (Rtmap.Engine.tickInsn s) (Rtmap.Engine.tickInsn t) :=
  ⟨congrArg Rtmap.Engine.tickInsn h.untyped, h.registers⟩

theorem SameTraces.snapshot {s t : State} (hst : SameTraces s t) (u : SnapshotUpdate) :
    SameTraces (applySnapshotUpdate u s) (applySnapshotUpdate u t) := by
  let load (x : State) : State :=
    { x with world := { x.world with regs := fun i => u.regs.getD i.val 0 } }
  have hload : (load s).untyped = (load t).untyped := congrArg load hst.untyped
  refine ⟨hload, ?_⟩
  exact bareRegs_withRegs u.threadId (s := load s) (t := load t) hst.registers
    fun _ _ hab => ShadowRegisterFile.bare_applySnapshot hab ..

end Hosts

namespace Recorded

/-- The registers that the slots of a snapshot carry. -/
def values (six : Fin 6 → Slot) (i : RegIdx) : UInt64 :=
  let ev := (six ⟨i.val / 3, by omega⟩).2
  if i.val % 3 = 0 then ev.addr else if i.val % 3 = 1 then ev.size.toUInt64 else ev.value

/-- The slots `record_reg_snapshot` writes behind the header, as a replay reads them. -/
def written (host : Host) (header : Event) (six : Fin 6 → Slot) (i : Fin 6) : Slot :=
  (host, {
    addr := values six ⟨i * 3, addrReg_lt i⟩
    size := (values six ⟨i * 3 + 1, sizeReg_lt i⟩).toUInt32
    threadId := header.threadId
    seq := header.seq
    value := values six ⟨i * 3 + 2, valueReg_lt i⟩
    kindFlags := header.kindFlags
    ripLo := 0 })

/-- What a replay in these surroundings reads of what the session recorded of a unit. -/
def replayed (host : Host) : Recorded → Recorded
  | event x hx => .event (host, x.2) hx
  | snapshot x six hx _ => .snapshot (host, x.2) (written host x.2 six) hx fun _ => hx

theorem carriesRegs_values {six : Fin 6 → Slot}
    (hsix : ∀ i, (six i).2.kind = EVENT_REG_SNAPSHOT) (i : Fin 6) :
    CarriesRegs (values six) i (six i).2 := by
  have hvalues (k : ℕ) (hk : k < 3) : values six ⟨i * 3 + k, by omega⟩ =
      if k = 0 then (six i).2.addr else if k = 1 then (six i).2.size.toUInt64
        else (six i).2.value := by
    have hdiv : (i.val * 3 + k) / 3 = i.val := by omega
    have hmod : (i.val * 3 + k) % 3 = k := by omega
    simp only [values, hdiv, hmod]
  exact ⟨hsix i, (hvalues 0 (by omega)).symm, (hvalues 1 (by omega)).symm,
    (hvalues 2 (by omega)).symm⟩

theorem packed_values (six : Fin 6 → Slot) : packed (values six) = values six := by
  funext i
  rw [packed]
  split
  · rename_i hi
    have hzero : ¬ i.val % 3 = 0 := by omega
    rw [values]
    simp only [if_neg hzero, if_pos hi, UInt32.toUInt32_toUInt64]
  · rfl

/-- The decoder finds the same registers in what was recorded of a snapshot. -/
theorem applyRegSnapshot_written (host : Host) {header : Event} (six : Fin 6 → Slot)
    (hx : header.kind = EVENT_REG_SNAPSHOT) (hsix : ∀ i, (six i).2.kind = EVENT_REG_SNAPSHOT) :
    applyRegSnapshot (header :: (List.ofFn (written host header six)).map Prod.snd) =
      applyRegSnapshot (header :: (List.ofFn six).map Prod.snd) := by
  have hwritten (i : Fin 6) : CarriesRegs (values six) i (written host header six i).2 := by
    have hrecord := carriesRegs_snapshotRecord hx (values six) i
    rw [packed_values] at hrecord
    exact hrecord
  rw [List.map_ofFn, List.map_ofFn]
  exact (applyRegSnapshot_spec hx hwritten).trans
    (applyRegSnapshot_spec hx (carriesRegs_values hsix)).symm

/-- The update in a snapshot: its registers are the values of the slots. -/
theorem applyRegSnapshot_six {header : Event} (six : Fin 6 → Slot)
    (hx : header.kind = EVENT_REG_SNAPSHOT) (hsix : ∀ i, (six i).2.kind = EVENT_REG_SNAPSHOT) :
    applyRegSnapshot (header :: (List.ofFn six).map Prod.snd) = (7, some {
      regs := List.ofFn (values six)
      insnCounter := header.addr
      threadId := header.threadId
      seq := header.seq.toUInt64 }) := by
  rw [List.map_ofFn]
  exact applyRegSnapshot_spec hx (carriesRegs_values hsix)

/-- The events of the unit's slots. -/
def events (u : Recorded) : List Event := u.slots.map Prod.snd

/-- `--no-bb` leaves the unit out. -/
def dropped (noBb : Bool) : Recorded → Bool
  | event x _ => noBb && x.2.kind == EVENT_BB_ENTRY
  | snapshot .. => false

/-- The surroundings of an event leave the same traces as these. -/
def Alike (host : Host) : Recorded → Prop
  | event x _ => x.1.TracesAlike host
  | snapshot .. => True

theorem pieces_kept (noBb : Bool) (us : List Recorded) :
    pieces noBb 0 (us.flatMap slots) = (us.filter fun u => !u.dropped noBb).map piece := by
  induction us with
  | nil => rfl
  | cons u us ih =>
      rw [List.flatMap_cons, List.filter_cons]
      cases u with
      | event x hx =>
          rw [slots, List.singleton_append, pieces, ih, dropped]
          cases noBb && x.2.kind == EVENT_BB_ENTRY with
          | true => rfl
          | false =>
              rw [if_neg Bool.false_ne_true, if_neg hx]
              rfl
      | snapshot x six hx hsix =>
          have hall : ∀ y ∈ List.ofFn six, y.2.kind = EVENT_REG_SNAPSHOT := by
            intro y hy
            obtain ⟨i, rfl⟩ := List.mem_ofFn.mp hy
            exact hsix i
          rw [dropped, if_pos (by rfl), List.map_cons, ← ih]
          exact pieces_snapshot hx List.length_ofFn hall

end Recorded

namespace Session

/-- The session is where the replay is, having recorded the events. -/
structure Mirrors (s : Session) (r : Replay) (evs : List Event) : Prop where
  traces : SameTraces s.engine r.engine
  total : s.total = r.total
  sorted : s.sorted
  recorder : s.recorder = some evs

section Pieces
variable {s : Session} {r : Replay} {evs : List Event} (orders : IndexOrders) {noBb : Bool}

theorem track_frame (ev : Event) (s : Session) : SameTraces (s.track ev).engine s.engine ∧
    (s.track ev).total = s.total ∧ (s.track ev).recorder = s.recorder := by
  rw [track]
  dsimp only
  split <;> exact ⟨⟨rfl, rfl⟩, rfl, rfl⟩

theorem handle_frame (host : Host) (ev : Event) (s : Session) :
    SameTraces (s.handle host ev).engine (processEvent host ev s.engine) ∧
      (s.handle host ev).total = s.total ∧
      (s.handle host ev).recorder = s.recorder.map (· ++ [ev]) := by
  have hfork (s : Session) : SameTraces (s.fork ev).engine s.engine ∧
      (s.fork ev).total = s.total ∧ (s.fork ev).recorder = s.recorder := by
    rw [fork]
    split <;> exact ⟨⟨rfl, rfl⟩, rfl, rfl⟩
  have hcross (s : Session) : SameTraces (s.crossWrite ev).engine s.engine ∧
      (s.crossWrite ev).total = s.total ∧ (s.crossWrite ev).recorder = s.recorder := by
    rw [crossWrite]
    split
    · split <;> exact ⟨⟨rfl, rfl⟩, rfl, rfl⟩
    · exact ⟨⟨rfl, rfl⟩, rfl, rfl⟩
  let processed : Session := { s with engine := processEvent host ev s.engine }
  obtain ⟨hforked, htotal, hrec⟩ := hfork processed
  obtain ⟨hcrossed, htotal', hrec'⟩ := hcross (processed.fork ev)
  exact ⟨hcrossed.trans hforked, htotal'.trans htotal,
    congrArg (Option.map (· ++ [ev])) (hrec'.trans hrec)⟩

/-- What the two loops over a buffer do alike: the pieces go to the engine and to the recorder. -/
structure Handles (f : Session → Piece → Session) : Prop where
  event : ∀ host ev s, SameTraces (f s (.event host ev)).engine
      (processEvent host ev (tickInsn s.engine)) ∧ (f s (.event host ev)).total = s.total + 1 ∧
    (f s (.event host ev)).recorder = s.recorder.map (· ++ [ev])
  snapshot : ∀ header cont n u s, applyRegSnapshot (header :: cont) = (n, some u) →
    SameTraces (f s (.snapshot header cont)).engine (tickInsn (applySnapshotUpdate u s.engine)) ∧
    (f s (.snapshot header cont)).total = s.total + consumed header cont ∧
    (f s (.snapshot header cont)).recorder =
      s.recorder.map (· ++ snapshotRecord header fun i => u.regs.getD i.val 0)
  sorted : ∀ s p, s.sorted → (f s p).sorted

theorem handles_rootPiece : Handles rootPiece where
  event host ev s := by
    obtain ⟨htracked, htotal, hrec⟩ := track_frame ev (count 1 s)
    obtain ⟨hhandled, htotal', hrec'⟩ := handle_frame host ev (track ev (count 1 s))
    have hhost : host.TracesAlike host := ⟨rfl, rfl⟩
    exact ⟨hhandled.trans (htracked.event hhost ev), htotal'.trans htotal,
      hrec'.trans (congrArg _ hrec)⟩
  snapshot header cont n u s hu := by
    let applied : Session := { s with engine := applySnapshotUpdate u s.engine }
    have happlied : applySnapshot header cont s = applied := by
      rw [applySnapshot, hu]
    obtain ⟨htracked, htotal, hrec⟩ := track_frame header (recordSnapshot header applied)
    have hpiece : rootPiece s (.snapshot header cont) =
        count (consumed header cont) (track header (recordSnapshot header applied)) := by
      rw [rootPiece, happlied]
    rw [hpiece]
    exact ⟨SameTraces.tickInsn htracked, congrArg (· + consumed header cont) htotal, hrec⟩
  sorted _ p h := sorted_rootPiece p h

theorem handles_childPiece : Handles childPiece where
  event host ev s := handle_frame host ev (count 1 s)
  snapshot header cont n u s hu := by
    let applied : Session := { s with engine := applySnapshotUpdate u s.engine }
    have happlied : applySnapshot header cont s = applied := by
      rw [applySnapshot, hu]
    have hpiece : childPiece s (.snapshot header cont) =
        count (consumed header cont) (recordSnapshot header applied) := by
      rw [childPiece, happlied]
    rw [hpiece]
    exact ⟨⟨rfl, rfl⟩, rfl, rfl⟩
  sorted _ p h := sorted_childPiece p h

/-- A unit that the session handles, and the replay of what is recorded of it. -/
theorem Mirrors.unit {f : Session → Piece → Session} (hf : Handles f) {host : Host}
    (h : Mirrors s r evs) (u : Recorded) (halike : u.Alike host) (hkept : u.dropped noBb = false) :
    Mirrors (f s u.piece) (Replay.step noBb orders r (.piece (u.replayed host).piece))
      (evs ++ (u.replayed host).events) := by
  cases u with
  | event x hx =>
      obtain ⟨htraces, htotal, hrec⟩ := hf.event x.1 x.2 s
      have hstep : Replay.step noBb orders r (.piece (.event host x.2)) = {
          engine := processEvent host x.2 (tickInsn r.engine)
          total := r.total + 1
          needFinalize := r.needFinalize || x.2.kind == EVENT_CALL } := by
        have hbb : (noBb && x.2.kind == EVENT_BB_ENTRY) = false := hkept
        simp only [Replay.step, hbb, Bool.false_eq_true, if_false]
      rw [Recorded.replayed, Recorded.piece, Recorded.piece, hstep]
      refine ⟨htraces.trans (h.traces.tickInsn.event halike x.2), ?_, hf.sorted s _ h.sorted, ?_⟩
      · rw [htotal, h.total]
      · rw [hrec, h.recorder]
        rfl
  | snapshot x six hx hsix =>
      have hdecoded := Recorded.applyRegSnapshot_six six hx hsix
      have hwritten := (Recorded.applyRegSnapshot_written host six hx hsix).trans hdecoded
      obtain ⟨htraces, htotal, hrec⟩ := hf.snapshot x.2 _ _ _ s hdecoded
      refine ⟨?_, ?_, hf.sorted s _ h.sorted, ?_⟩
      · simp only [Recorded.replayed, Recorded.piece, Replay.step, hwritten, Option.elim]
        exact htraces.trans (SameTraces.tickInsn (h.traces.snapshot _))
      · refine htotal.trans ?_
        simp only [Recorded.replayed, Recorded.piece, Replay.step, consumed, hwritten, hdecoded,
          h.total]
      · refine hrec.trans ?_
        rw [h.recorder]
        have hregs : (fun i : RegIdx => (List.ofFn (Recorded.values six)).getD i.val 0) =
            Recorded.values six := by
          funext i
          rw [List.getD_eq_getElem?_getD, List.getElem?_ofFn, dif_pos i.isLt]
          rfl
        simp only [hregs, Recorded.events, Recorded.slots, Option.map_some]
        rfl

theorem Mirrors.units {f : Session → Piece → Session} (hf : Handles f) {host : Host}
    (us : List Recorded) (halike : ∀ u ∈ us, u.Alike host)
    (hkept : ∀ u ∈ us, u.dropped noBb = false) : ∀ {s r evs}, Mirrors s r evs →
      Mirrors ((us.map Recorded.piece).foldl f s)
        (Replay.run noBb orders r (us.map fun u => .piece (u.replayed host).piece))
        (evs ++ us.flatMap fun u => (u.replayed host).events) := by
  induction us with
  | nil =>
      intro s r evs h
      rw [List.flatMap_nil, List.append_nil]
      exact h
  | cons u us ih =>
      intro s r evs h
      have hstep := h.unit orders hf u (halike u (.head _)) (hkept u (.head _))
      rw [List.flatMap_cons, ← List.append_assoc]
      exact ih (fun v hv => halike v (.tail _ hv)) (fun v hv => hkept v (.tail _ hv)) hstep

theorem mirrors_finalize (h : Mirrors s r evs) (needFinalize : Bool) :
    Mirrors { s with
      engine := { s.engine with addrIndex := s.engine.addrIndex.finalize orders }
      needFinalize := needFinalize } r evs := by
  rw [AddressIndex.finalize_of_sorted h.sorted]
  exact ⟨h.traces, h.total, h.sorted, h.recorder⟩

end Pieces

end Session

/-- A pass whose buffers hold whole snapshots. -/
structure WholePass where
  root : List Recorded
  children : List Recorded := []

/-- What a live session does while it records: passes of a tick, the aging of the cache
lines, and the sweep at exit over events. -/
inductive RecordingStep where
  | tick (passes : List WholePass)
  | age
  | sweep (evs : List { x : Slot // x.2.kind ≠ EVENT_REG_SNAPSHOT })

namespace RecordingStep

def live : RecordingStep → Session.LiveStep
  | tick passes => .tick (passes.map fun p =>
      ⟨p.root.flatMap Recorded.slots, p.children.flatMap Recorded.slots⟩)
  | age => .age
  | sweep evs => .sweep (evs.map Subtype.val)

/-- The units of the step, in the order they are handled. -/
def units : RecordingStep → List Recorded
  | tick passes => passes.flatMap fun p => p.root ++ p.children
  | age => []
  | sweep evs => evs.map fun x => .event x.1 x.2

end RecordingStep

namespace Session
variable {noBb noBb' : Bool} (orders orders' : IndexOrders) {host : Host} {s : Session} {r : Replay}
  {evs : List Event}

/-- The recorded units. -/
def keptUnits (noBb : Bool) (us : List Recorded) : List Recorded := us.filter fun u => !u.dropped noBb

theorem keptUnits_append (us vs : List Recorded) : keptUnits noBb (us ++ vs) = keptUnits noBb us ++ keptUnits noBb vs :=
  List.filter_append us vs

/-- The replay of units. -/
def replayUnits (noBb : Bool) (orders : IndexOrders) (host : Host) (us : List Recorded) (r : Replay) :
    Replay :=
  Replay.run noBb orders r (us.map fun u => .piece (u.replayed host).piece)

theorem replayUnits_append (us vs : List Recorded) (r : Replay) :
    replayUnits noBb orders host (us ++ vs) r =
      replayUnits noBb orders host vs (replayUnits noBb orders host us r) := by
  rw [replayUnits, List.map_append, Replay.run, List.foldl_append]
  rfl

/-- The events of replayed units. -/
def eventsOf (host : Host) (us : List Recorded) : List Event :=
  us.flatMap fun u => (u.replayed host).events

theorem Mirrors.buffer {f : Session → Piece → Session} (hf : Handles f)
    (hbb : noBb' = true → noBb = true) (us : List Recorded) (halike : ∀ u ∈ us, u.Alike host)
    (h : Mirrors s r evs) : Mirrors ((pieces noBb 0 (us.flatMap Recorded.slots)).foldl f s)
      (replayUnits noBb' orders host (keptUnits noBb us) r) (evs ++ eventsOf host (keptUnits noBb us)) := by
  have hdropped (u : Recorded) (hu : u ∈ keptUnits noBb us) : u.dropped noBb' = false := by
    have hkept : u.dropped noBb = false := by simpa using (List.mem_filter.mp hu).2
    cases u with
    | snapshot x six hx hsix => rfl
    | event x hx =>
        simp only [Recorded.dropped, Bool.and_eq_false_iff] at hkept ⊢
        refine hkept.imp_left fun hoff => ?_
        cases hon : noBb' with
        | false => rfl
        | true => rw [hbb hon] at hoff; exact hoff
  rw [Recorded.pieces_kept]
  exact Mirrors.units orders hf _ (fun u hu => halike u (List.mem_filter.mp hu).1) hdropped h

theorem Mirrors.pass (hbb : noBb' = true → noBb = true) (p : WholePass)
    (halike : ∀ u ∈ p.root ++ p.children, u.Alike host) (h : Mirrors s r evs) :
    Mirrors (drainPass noBb s ⟨p.root.flatMap Recorded.slots, p.children.flatMap Recorded.slots⟩)
      (replayUnits noBb' orders host (keptUnits noBb (p.root ++ p.children)) r)
      (evs ++ eventsOf host (keptUnits noBb (p.root ++ p.children))) := by
  have hroot := h.buffer orders handles_rootPiece hbb p.root
    fun u hu => halike u (List.mem_append_left _ hu)
  have hboth := hroot.buffer orders handles_childPiece hbb p.children
    fun u hu => halike u (List.mem_append_right _ hu)
  rw [keptUnits_append, replayUnits_append, eventsOf, List.flatMap_append, ← List.append_assoc]
  exact hboth

theorem Mirrors.passes (hbb : noBb' = true → noBb = true) (passes : List WholePass)
    (halike : ∀ u ∈ (RecordingStep.tick passes).units, u.Alike host) : ∀ {s r evs},
    Mirrors s r evs → Mirrors ((passes.map fun p =>
        ⟨p.root.flatMap Recorded.slots, p.children.flatMap Recorded.slots⟩).foldl
          (drainPass noBb) s)
      (replayUnits noBb' orders host (keptUnits noBb (RecordingStep.tick passes).units) r)
      (evs ++ eventsOf host (keptUnits noBb (RecordingStep.tick passes).units)) := by
  induction passes with
  | nil =>
      intro s r evs h
      rw [show eventsOf host (keptUnits noBb (RecordingStep.tick []).units) = [] from rfl,
        List.append_nil]
      exact h
  | cons p passes ih =>
      intro s r evs h
      have hunits : (RecordingStep.tick (p :: passes)).units =
        (p.root ++ p.children) ++ (RecordingStep.tick passes).units := List.flatMap_cons
      rw [hunits] at halike ⊢
      have hpass := h.pass orders hbb p fun u hu => halike u (List.mem_append_left _ hu)
      rw [keptUnits_append, replayUnits_append, eventsOf, List.flatMap_append, ← List.append_assoc]
      exact ih (fun u hu => halike u (List.mem_append_right _ hu)) hpass

/-- An event of the sweep as a piece of a buffer: its line and its number aside, it is
handled like one. -/
def sweepPiece (s : Session) : Piece → Session
  | .event host ev => sweepEvent false s (host, ev)
  | .snapshot header cont => rootPiece s (.snapshot header cont)

theorem handles_sweepPiece : Handles sweepPiece where
  event _ _ _ := ⟨⟨rfl, rfl⟩, rfl, rfl⟩
  snapshot := handles_rootPiece.snapshot
  sorted s p hs := by
    cases p with
    | event host ev => exact staticsSorted_processEvent host ev _ hs
    | snapshot header cont => exact sorted_rootPiece _ hs

theorem Mirrors.sweep (hbb : noBb' = true → noBb = true)
    (xs : List { x : Slot // x.2.kind ≠ EVENT_REG_SNAPSHOT })
    (halike : ∀ u ∈ (RecordingStep.sweep xs).units, u.Alike host) (h : Mirrors s r evs) :
    Mirrors (finalSweep noBb s (xs.map Subtype.val))
      (replayUnits noBb' orders host (keptUnits noBb (RecordingStep.sweep xs).units) r)
      (evs ++ eventsOf host (keptUnits noBb (RecordingStep.sweep xs).units)) := by
  have hunits := h.buffer orders handles_sweepPiece hbb _ halike
  rw [Recorded.pieces_kept] at hunits
  refine cast (congrArg (fun x => Mirrors x _ _) ?_) hunits
  rw [finalSweep]
  clear hunits h halike
  induction xs generalizing s with
  | nil => rfl
  | cons x xs ih =>
      let unit : Recorded := .event x.1 x.2
      have hunits : (RecordingStep.sweep (x :: xs)).units =
        unit :: (RecordingStep.sweep xs).units := rfl
      rw [hunits, List.map_cons, List.foldl_cons, ← ih]
      cases hdropped : noBb && x.1.2.kind == EVENT_BB_ENTRY with
      | true =>
          have hunit : unit.dropped noBb = true := hdropped
          rw [List.filter_cons_of_neg (by rw [hunit]; decide), sweepEvent, if_pos hdropped]
      | false =>
          have hunit : unit.dropped noBb = false := hdropped
          rw [List.filter_cons_of_pos (by rw [hunit]; rfl), sweepEvent, if_neg (by rw [hdropped]; decide)]
          rfl

/-- The traces of the session after each step are those of the replay of what it recorded. -/
theorem Mirrors.step (hbb : noBb' = true → noBb = true) (l : RecordingStep)
    (halike : ∀ u ∈ l.units, u.Alike host) (h : Mirrors s r evs) :
    Mirrors (live noBb orders' s l.live)
      (replayUnits noBb' orders host (keptUnits noBb l.units) r)
      (evs ++ eventsOf host (keptUnits noBb l.units)) := by
  cases l with
  | sweep xs => exact h.sweep orders hbb xs halike
  | age =>
      rw [show eventsOf host (keptUnits noBb RecordingStep.age.units) = [] from rfl, List.append_nil]
      show Mirrors (if s.total % 0x1000 = 0 then _ else s) r evs
      split
      · exact ⟨⟨h.traces.untyped, h.traces.registers⟩, h.total, h.sorted, h.recorder⟩
      · exact h
  | tick passes =>
      have hstart : Mirrors { s with needFinalize := false } r evs :=
        ⟨h.traces, h.total, h.sorted, h.recorder⟩
      have hpasses := hstart.passes orders hbb passes halike
      show Mirrors (tick noBb orders' _ s) _ _
      rw [tick]
      dsimp only
      split
      · exact mirrors_finalize orders' hpasses _
      · exact hpasses

theorem Mirrors.steps (hbb : noBb' = true → noBb = true) (ls : List RecordingStep)
    (halike : ∀ l ∈ ls, ∀ u ∈ l.units, u.Alike host) : ∀ {s r evs}, Mirrors s r evs →
    Mirrors (ls.foldl (fun s l => live noBb orders' s l.live) s)
      (replayUnits noBb' orders host (keptUnits noBb (ls.flatMap RecordingStep.units)) r)
      (evs ++ eventsOf host (keptUnits noBb (ls.flatMap RecordingStep.units))) := by
  induction ls with
  | nil =>
      intro s r evs h
      rw [show eventsOf host (keptUnits noBb ([].flatMap RecordingStep.units)) = [] from rfl,
        List.append_nil]
      exact h
  | cons l ls ih =>
      intro s r evs h
      have hstep := h.step orders orders' hbb l (halike l (.head _))
      rw [List.flatMap_cons, keptUnits_append, replayUnits_append, eventsOf, List.flatMap_append,
        ← List.append_assoc]
      exact ih (fun k hk => halike k (.tail _ hk)) hstep

end Session

section Replayed
variable {noBb noBb' : Bool} (orders orders' : IndexOrders) {host : Host}

theorem slots_replayed (u : Recorded) :
    (u.replayed host).events.map (host, ·) = (u.replayed host).slots := by
  rw [Recorded.events, List.map_map]
  refine (List.map_congr_left fun x hx => ?_).trans (List.map_id _)
  cases u with
  | event y hy =>
      obtain rfl := List.mem_singleton.mp hx
      rfl
  | snapshot y six hy hsix =>
      cases hx with
      | head => rfl
      | tail _ hx =>
          obtain ⟨i, rfl⟩ := List.mem_ofFn.mp hx
          rfl

/-- The ends of batches do not count. -/
theorem total_run (ls : List ReplayStep) : ∀ a b : Replay, a.total = b.total →
    (Replay.run noBb orders a ls).total = (Replay.run noBb orders b (piecesOnly ls)).total := by
  induction ls with
  | nil => exact fun _ _ h => h
  | cons l ls ih =>
      intro a b h
      cases l with
      | endBatch => exact ih _ _ h
      | piece p =>
          refine ih _ _ ?_
          cases p with
          | event host ev =>
              rw [Replay.step_event, Replay.step_event]
              split
              · exact h
              · exact congrArg (· + 1) h
          | snapshot header cont => exact congrArg (· + consumed header cont) h

/-- A session that starts to record, with or without a stream. -/
structure StartsRecording (host : Host) (info : Option DwarfInfo) (s : Session) : Prop where
  engine : ∃ t, s.engine = (Replay.start host info).engine.withTopo t
  total : s.total = 0
  recorder : s.recorder = some []

theorem sweptStore_kind :
    (numbered 1 0 (plainEvent EVENT_WRITE 0x1000 7)).kind ≠ EVENT_REG_SNAPSHOT := by decide

/-- A tick with a snapshot, a store and a load in it, and a store left to the sweep. -/
def storeLoadSweep : List RecordingStep :=
  [.tick [{ root := storeAndLoad }], .age,
    .sweep [⟨(.plain, numbered 1 0 (plainEvent EVENT_WRITE 0x1000 7)), sweptStore_kind⟩]]

end Replayed

end Rtmap.Engine
