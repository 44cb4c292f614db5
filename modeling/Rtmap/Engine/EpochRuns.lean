import Rtmap.Engine.EpochEnds

/-!
# Type epochs over whole runs

A pass of the warm scan visits an address once, so that it logs at most one epoch of
it. `ends_logged` puts the passes and the other inputs together.
-/
namespace Rtmap.Engine
open Rtmap.Ring

namespace WarmState

/-- The closing lines of the stream. -/
def closes (s : WarmState) : Option (List Line) := s.topo.map fun ls => ls.filter Line.isClose

/-- The stamp of a visit displaces a tracked block's projection and counts as the reuse of
a pool, or the replay after it displaces. -/
def visitDrops (item : WarmItem) (s : WarmState) : Bool :=
  let r := s.world.stm.stampType item.addr item.typeInfo item.source 0
  (s.world.heapAllocs.allocSize item.addr).isSome &&
      s.world.stm.displaces item.addr item.typeInfo 0 && s.world.stm.addrSchisms item.addr != 0 ||
    r.2.applied && r.1.replayTakes s.info.typeRegistry s.world.heapAllocs

/-- One of the visits of the loop drops what it displaces. -/
def loopDrops (host : Host) (view : WarmView) (budget start : ℕ) : ℕ → WarmState → Bool
  | 0, _ => false
  | rounds + 1, s =>
      match s.scanner.queue with
      | [] => false
      | item :: queue =>
          let r := materialize host s.info item.typeInfo
          let item := { item with typeInfo := r.2 }
          let popped := { s with info := r.1, scanner := { s.scanner with queue := queue } }
          if s.scanner.stats.reads - start ≥ budget then false
          else if item.depth > s.scanner.maxDepth ∨ item.addr ∈ s.scanner.visited then
            loopDrops host view budget start rounds popped
          else visitDrops item popped ||
            loopDrops host view budget start rounds (visit view item popped)

/-- One of the calls of `step` drops what it displaces. -/
def stepsDrop (host : Host) (view : WarmView) : List (ℕ × ℕ) → WarmState → Bool
  | [], _ => false
  | b :: bs, s =>
      loopDrops host view b.1 s.scanner.stats.reads b.2 s ||
        stepsDrop host view bs (step host view b.1 b.2 s)

section Visit
variable {view : WarmView} {item : WarmItem} {s : WarmState} {b : UInt64} {p : TypeProjection}

/-- A scan of fields changes no projection. -/
theorem lookup_scanFields (view : WarmView) (base : UInt64) (ti : TypeInfo) (source : String)
    (depth : ℕ) (s : WarmState) (b : UInt64) :
    (scanFields view base ti source depth s).world.stm.lookup b = s.world.stm.lookup b := by
  have hemits : PtrScan.Emits s.scanner.visited _ _ _ := PtrScan.emits_scanPtrFields view
    s.info.typeRegistry 8 base ti.fields source depth
    ⟨s.scanner.queue, s.scanner.stats, s.world.stm, s.cold⟩
  exact congrArg (fun m : SortedMap UInt64 TypeProjection => m.get? b) hemits.map

theorem lookup_visit
    (h : ((s.world.stm.stampType item.addr item.typeInfo item.source 0).2.applied &&
      (s.world.stm.stampType item.addr item.typeInfo item.source 0).1.replayTakes
        s.info.typeRegistry s.world.heapAllocs) = false)
    (hb : (s.world.heapAllocs.allocSize b).isSome) (hp : s.world.stm.lookup b = some p)
    (hkept : b = item.addr → s.world.stm.displaces item.addr item.typeInfo 0 = false) :
    (visit view item s).world.stm.lookup b = some p := by
  let r := s.world.stm.stampType item.addr item.typeInfo item.source 0
  let marked : WarmState := { s with scanner := { s.scanner with
    visited := item.addr :: s.scanner.visited } }
  let stamped : WarmState := { marked with world := { s.world with stm := r.1 } }
  have hstamp : r.1.lookup b = some p := ShadowTypeMap.lookup_stampType_kept item.source hkept hp
  obtain ⟨-, hinfo, hstm⟩ := report_frame item r.2 stamped
  have hallocs : (report item r.2 stamped).world.heapAllocs = s.world.heapAllocs := by
    cases r.2 <;> rfl
  have hreplay : (replay item r.2 (report item r.2 stamped)).world.stm.lookup b = some p := by
    rw [replay]
    split
    · rename_i happlied
      have htakes : r.1.replayTakes s.info.typeRegistry s.world.heapAllocs = false := by
        have happlied' : (s.world.stm.stampType item.addr item.typeInfo item.source 0).2.applied =
            true := happlied
        rw [happlied', Bool.true_and] at h
        exact h
      show ((report item r.2 stamped).world.stm.replayDeferred (report item r.2
        stamped).info.typeRegistry (report item r.2 stamped).world.heapAllocs).lookup b = some p
      rw [hinfo, hallocs, hstm]
      exact ShadowTypeMap.lookup_replayDeferred htakes hb hstamp
    · rw [hstm]
      exact hstamp
  rw [visit, lookup_scanFields]
  show (rescan view item (replay item r.2 (report item r.2 stamped))).world.stm.lookup b = some p
  rw [rescan]
  split
  · exact ShadowTypeMap.lookup_retrospectiveScan _ _ _ hreplay
  · exact hreplay

/-- What a visit logs is what its report logs. -/
theorem logs_visit (view : WarmView) (item : WarmItem) (s : WarmState) :
    let r := s.world.stm.stampType item.addr item.typeInfo item.source 0
    (visit view item s).world.typeEpochs = (report item r.2 s).world.typeEpochs ∧
      (visit view item s).closes = (report item r.2 s).closes := by
  intro r
  let marked : WarmState := { s with scanner := { s.scanner with
    visited := item.addr :: s.scanner.visited } }
  let stamped : WarmState := { marked with world := { s.world with stm := r.1 } }
  have hreport : (report item r.2 stamped).world.typeEpochs =
      (report item r.2 s).world.typeEpochs ∧
      (report item r.2 stamped).closes = (report item r.2 s).closes := by
    cases r.2 <;> exact ⟨rfl, rfl⟩
  have hreplay (t : WarmState) : (replay item r.2 t).world.typeEpochs = t.world.typeEpochs ∧
      (replay item r.2 t).closes = t.closes := by
    rw [replay]
    split <;> exact ⟨rfl, rfl⟩
  have hrescan (t : WarmState) : (rescan view item t).world.typeEpochs = t.world.typeEpochs ∧
      (rescan view item t).closes = t.closes := by
    rw [rescan]
    split <;> exact ⟨rfl, rfl⟩
  have hlast : (visit view item s).world.typeEpochs =
      (rescan view item (replay item r.2 (report item r.2 stamped))).world.typeEpochs ∧
      (visit view item s).closes =
        (rescan view item (replay item r.2 (report item r.2 stamped))).closes := ⟨rfl, rfl⟩
  exact ⟨hlast.1.trans ((hrescan _).1.trans ((hreplay _).1.trans hreport.1)),
    hlast.2.trans ((hrescan _).2.trans ((hreplay _).2.trans hreport.2))⟩

/-- What a report logs is of the item's address; it logs nothing where nothing is displaced,
and the schism of a tracked block once. -/
theorem logs_report (item : WarmItem) (r : StampResult) (s : WarmState) : ∃ epochs lines,
    (report item r s).world.typeEpochs =
        epochs.foldl TypeEpochLog.closeEpoch s.world.typeEpochs ∧
      (report item r s).closes = s.closes.map (· ++ lines) ∧
      (∀ b, b ≠ item.addr → epochs.filter (fun e => e.addr == b) = [] ∧
        lines.filter (Line.closesAt b) = []) ∧
      (r.displaced = none → epochs = [] ∧ lines = []) ∧
      ∀ p : TypeProjection, r = .schism p.oldStamp →
        (s.world.heapAllocs.allocSize item.addr).isSome → LoggedOnce epochs lines item.addr p := by
  let close (old : OldStamp) (reason : CloseReason) : Line :=
    .typeEpochClose 0 item.addr old.type old.source old.stampSeq 0 reason
  have hline (old : OldStamp) (reason : CloseReason) (b : UInt64) (hb : b ≠ item.addr) :
      [close old reason].filter (Line.closesAt b) = [] :=
    List.filter_eq_nil_iff.mpr fun l hl => by
      rw [List.mem_singleton.mp hl]
      simpa [close, Line.closesAt] using hb.symm
  cases r with
  | schism old =>
      have hlines : (report item (.schism old) s).closes =
          s.closes.map (· ++ [close old .schism]) := by
        simp only [closes, report, Topology.filter_emit, Option.map_map]
        congr 1
        funext ls
        simp [Line.isClose, close]
      cases hsize : s.world.heapAllocs.allocSize item.addr with
      | none =>
          refine ⟨[], [close old .schism], ?_, hlines, fun b hb => ⟨rfl, hline old .schism b hb⟩,
            fun hnone => ?_, fun _ _ hlive => ?_⟩
          · simp only [report, hsize, List.foldl_nil]
          · cases hnone
          · cases hlive
      | some size =>
          refine ⟨[⟨item.addr, size, old.type, old.source, old.stampSeq, 0, .schism⟩],
            [close old .schism], ?_, hlines, fun b hb => ⟨?_, hline old .schism b hb⟩,
            fun hnone => ?_, fun p heq _ => ?_⟩
          · simp only [report, hsize, List.foldl_cons, List.foldl_nil]
          · exact List.filter_eq_nil_iff.mpr fun e he => by
              rw [List.mem_singleton.mp he]
              simpa using hb.symm
          · cases hnone
          · obtain rfl := StampResult.schism.inj heq
            refine ⟨⟨size, 0, .schism, List.filter_eq_self.mpr ?_⟩, ⟨0, .schism,
              List.filter_eq_self.mpr ?_⟩⟩
            · simp
            · simp [close, Line.closesAt]
  | poolReuse old =>
      have hlines : (report item (.poolReuse old) s).closes =
          s.closes.map (· ++ [close old .poolReuse]) := by
        simp only [closes, report, Topology.filter_emit]
        rfl
      refine ⟨[], [close old .poolReuse], rfl, hlines,
        fun b hb => ⟨rfl, hline old .poolReuse b hb⟩, fun hnone => ?_, fun _ heq => ?_⟩
      · cases hnone
      · cases heq
  | _ =>
      refine ⟨[], [], rfl, ?_, fun b _ => ⟨rfl, rfl⟩, fun _ => ⟨rfl, rfl⟩, fun _ heq => ?_⟩
      · simp only [report]
        cases s.closes <;> simp
      · cases heq

end Visit

/-- Since the start of a pass, the projection of a tracked block is in place and nothing of
it logged, or its address was visited and its end is logged once. -/
structure Settled (start : State) (s : WarmState) (epochs : List TypeEpoch) (lines : List Line) :
    Prop where
  allocs : s.world.heapAllocs = start.world.heapAllocs
  log : s.world.typeEpochs = epochs.foldl TypeEpochLog.closeEpoch start.world.typeEpochs
  stream : s.closes = start.closes.map (· ++ lines)
  settled : ∀ b p, (start.world.heapAllocs.allocSize b).isSome →
    start.world.stm.lookup b = some p →
    (s.world.stm.lookup b = some p ∧ epochs.filter (fun e => e.addr == b) = [] ∧
        lines.filter (Line.closesAt b) = []) ∨
      (b ∈ s.scanner.visited ∧ LoggedOnce epochs lines b p)

section Loop
variable {host : Host} {view : WarmView} {start : State} {s : WarmState}
  {epochs : List TypeEpoch} {lines : List Line}

/-- A visit that drops nothing keeps every block settled. -/
theorem Settled.visit (h : Settled start s epochs lines) {item : WarmItem}
    (hnew : item.addr ∉ s.scanner.visited) (hdrops : visitDrops item s = false) :
    ∃ epochs lines, Settled start (WarmState.visit view item s) epochs lines := by
  obtain ⟨es, ls, hlog, hstream, hother, hquiet, hschism⟩ := logs_report item
    (s.world.stm.stampType item.addr item.typeInfo item.source 0).2 s
  obtain ⟨hepochs, hcloses⟩ := logs_visit view item s
  rw [visitDrops, Bool.or_eq_false_iff] at hdrops
  obtain ⟨hreuse, hreplay⟩ := hdrops
  refine ⟨epochs ++ es, lines ++ ls, (heapAllocs_visit view item s).trans h.allocs, ?_, ?_, ?_⟩
  · rw [hepochs, hlog, h.log, List.foldl_append]
  · rw [hcloses, hstream, h.stream, Option.map_map]
    congr 1
    funext old
    exact List.append_assoc ..
  · intro b p hb hp
    have hvisited : (WarmState.visit view item s).scanner.visited =
        item.addr :: s.scanner.visited := (visit_frame view item s).2.1
    rw [List.filter_append, List.filter_append, hvisited]
    rcases h.settled b p hb hp with ⟨hkept, hnone, hquietLines⟩ | ⟨hold, honce⟩
    · rw [← h.allocs] at hb
      by_cases hdisplaced : b = item.addr → s.world.stm.displaces item.addr item.typeInfo 0 = false
      · left
        refine ⟨lookup_visit hreplay hb hkept hdisplaced, ?_⟩
        rw [hnone, hquietLines, List.nil_append, List.nil_append]
        by_cases hitem : b = item.addr
        · have hkeeps := hdisplaced hitem
          rw [ShadowTypeMap.displaces_eq _ _ _ item.source, Option.isSome_eq_false_iff,
            Option.isNone_iff_eq_none] at hkeeps
          obtain ⟨rfl, rfl⟩ := hquiet hkeeps
          exact ⟨rfl, rfl⟩
        · exact hother b hitem
      · rw [Classical.not_imp, Bool.not_eq_false] at hdisplaced
        obtain ⟨rfl, hdisplaces⟩ := hdisplaced
        right
        refine ⟨List.mem_cons_self, ?_⟩
        have hfirst : s.world.stm.addrSchisms item.addr = 0 := by
          simpa [hb, hdisplaces] using hreuse
        have honce := hschism p (ShadowTypeMap.stampType_schism item.source hdisplaces hfirst hkept) hb
        refine ⟨?_, ?_⟩
        · rw [List.filter_append, hnone, List.nil_append]
          exact honce.epoch
        · rw [List.filter_append, hquietLines, List.nil_append]
          exact honce.line
    · have hne : b ≠ item.addr := fun heq => hnew (heq ▸ hold)
      obtain ⟨hes, hls⟩ := hother b hne
      right
      refine ⟨List.mem_cons_of_mem _ hold, ?_, ?_⟩
      · rw [List.filter_append, hes, List.append_nil]
        exact honce.epoch
      · rw [List.filter_append, hls, List.append_nil]
        exact honce.line

/-- What the scanner and the types materialized are does not matter, but for the visited. -/
theorem Settled.popped (h : Settled start s epochs lines) (info : DwarfInfo) {t : WarmScanner}
    (ht : t.visited = s.scanner.visited) :
    Settled start { s with info := info, scanner := t } epochs lines where
  allocs := h.allocs
  log := h.log
  stream := h.stream
  settled b p hb hp := by
    rw [ht]
    exact h.settled b p hb hp

theorem Settled.stepLoop (budget reads rounds : ℕ) (h : Settled start s epochs lines)
    (hdrops : loopDrops host view budget reads rounds s = false) :
    ∃ epochs lines, Settled start (WarmState.stepLoop host view budget reads rounds s) epochs
      lines := by
  induction rounds generalizing s epochs lines with
  | zero => exact ⟨epochs, lines, h⟩
  | succ rounds ih =>
      rw [WarmState.stepLoop]
      rw [loopDrops] at hdrops
      cases hqueue : s.scanner.queue with
      | nil => exact ⟨epochs, lines, h⟩
      | cons item queue =>
          simp only [hqueue] at hdrops
          dsimp only
          split
          · exact ⟨epochs, lines, h.popped _ rfl⟩
          · rename_i hbudget
            rw [if_neg hbudget] at hdrops
            split
            · rename_i hskip
              rw [if_pos hskip] at hdrops
              exact ih (h.popped _ rfl) hdrops
            · rename_i hskip
              rw [if_neg hskip, Bool.or_eq_false_iff] at hdrops
              obtain ⟨es, ls, hvisit⟩ := @Settled.visit view start (withQueue host s item queue)
                epochs lines (h.popped (materialize host s.info item.typeInfo).1 rfl)
                (deepItem host s item) (not_or.mp hskip).2 hdrops.1
              exact ih hvisit hdrops.2

theorem Settled.steps (steps : List (ℕ × ℕ)) (h : Settled start s epochs lines)
    (hdrops : stepsDrop host view steps s = false) :
    ∃ epochs lines, Settled start (steps.foldl (fun s b => step host view b.1 b.2 s) s) epochs
      lines := by
  induction steps generalizing s epochs lines with
  | nil => exact ⟨epochs, lines, h⟩
  | cons b steps ih =>
      rw [stepsDrop, Bool.or_eq_false_iff] at hdrops
      obtain ⟨es, ls, hstep⟩ := h.stepLoop b.1 s.scanner.stats.reads b.2 hdrops.1
      exact ih hstep hdrops.2

/-- Seeding stamps nothing. -/
theorem Settled.seed (delta : UInt64) (h : Settled start s epochs lines) :
    Settled start (WarmState.seed host view delta s) epochs lines := by
  have hfields (globals : List GlobalVar) (t : WarmState) (ht : Settled start t epochs lines) :
      Settled start (globals.foldl (fun t g =>
        scanFields view (g.addr + delta) g.typeInfo g.name 1 t) t) epochs lines := by
    induction globals generalizing t with
    | nil => exact ht
    | cons g globals ih =>
        refine ih _ ⟨ht.allocs, ht.log, ht.stream, fun b p hb hp => ?_⟩
        rw [lookup_scanFields]
        exact ht.settled b p hb hp
  have hprepared : Settled start { s with info := prepare host s.info } epochs lines :=
    ⟨h.allocs, h.log, h.stream, h.settled⟩
  have hseeded := hfields (prepare host s.info).globals _ hprepared
  exact ⟨hseeded.allocs, hseeded.log, hseeded.stream, hseeded.settled⟩

end Loop

end WarmState

namespace WarmPass

/-- A pass lets a stamp whose result it drops displace a tracked block's projection. -/
def drops (p : WarmPass) (r : WarmEngine) : Bool :=
  match r.engine.dwarfInfo, r.engine.relocationDelta with
  | some info, some delta => WarmState.stepsDrop p.host (p.view r) p.steps (p.seeded r info delta)
  | _, _ => false

theorem endsLogged_pass {p : WarmPass} {r : WarmEngine} (h : p.drops r = false) :
    EndsLogged (.pass p) r := by
  have hquiet (hrun : p.run r = r) : EndsLogged (.pass p) r := by
    refine ⟨[], [], congrArg (fun r : WarmEngine => r.engine.world.typeEpochs) hrun,
      (congrArg (fun r : WarmEngine => r.engine.closes) hrun).trans (closes_append_nil r.engine),
      fun b q hends => ?_⟩
    cases hends with
    | replaced _ hp hq hname =>
        have hq' : (p.run r).engine.world.stm.lookup b = some _ := hq
        rw [hrun] at hq'
        exact absurd (typeName_eq hp hq') hname
    | removed hevent => cases hevent
  cases hinfo : r.engine.dwarfInfo with
  | none => exact hquiet (by simp only [run, hinfo])
  | some info =>
      cases hdelta : r.engine.relocationDelta with
      | none => exact hquiet (by simp only [run, hinfo, hdelta])
      | some delta =>
          simp only [drops, hinfo, hdelta] at h
          have hstart : WarmState.Settled r.engine
              ⟨r.scanner, info, r.engine.world, r.engine.topo, r.cold⟩ [] [] :=
            ⟨rfl, rfl, closes_append_nil r.engine, fun b q _ hq => .inl ⟨hq, rfl, rfl⟩⟩
          obtain ⟨epochs, lines, hsettled⟩ :=
            (@WarmState.Settled.seed p.host (p.view r) _ _ _ _ delta hstart).steps p.steps h
          have hrun : p.run r = { r with
              engine := { r.engine with
                world := (p.stepped r info delta).world
                topo := (p.stepped r info delta).topo
                dwarfInfo := some (p.stepped r info delta).info }
              scanner := (p.stepped r info delta).scanner
              cold := (p.stepped r info delta).cold } := by
            rw [run, hinfo, hdelta]
          refine ⟨epochs, lines, ?_, ?_, fun b q hends => ?_⟩
          · show (p.run r).engine.world.typeEpochs = _
            rw [hrun]
            exact hsettled.log
          · show (p.run r).engine.closes = _
            rw [hrun]
            exact hsettled.stream
          · cases hends with
            | @replaced q' hb hp hq hname =>
                have hb' : ((p.run r).engine.world.heapAllocs.allocSize b).isSome := hb
                have hq' : (p.run r).engine.world.stm.lookup b = some q' := hq
                rw [hrun] at hb' hq'
                have htracked : (r.engine.world.heapAllocs.allocSize b).isSome :=
                  hsettled.allocs ▸ hb'
                rcases hsettled.settled b q htracked hp with ⟨hkept, -⟩ | ⟨-, honce⟩
                · exact absurd (typeName_eq hkept hq') hname
                · exact honce
            | removed hevent => cases hevent

end WarmPass

/-- The input lets a stamp whose result it drops displace a tracked block's projection. -/
def dropsEnd : WarmInput → WarmEngine → Bool
  | .input (.event host ev), r => eventDrops host ev r.engine
  | .input (.libraries _ modtab), r => librariesDrop modtab r.engine
  | .input (.snapshot _), _ => false
  | .pass p, r => p.drops r

/-- A register snapshot ends nothing. -/
theorem endsLogged_snapshot (u : SnapshotUpdate) (r : WarmEngine) :
    EndsLogged (.input (.snapshot u)) r := by
  refine ⟨[], [], rfl, closes_append_nil r.engine, fun b p hends => ?_⟩
  cases hends with
  | replaced _ hp hq hname => exact absurd (typeName_eq hp hq) hname
  | removed hevent => cases hevent

/-- In a run in which every stamp that displaces a tracked block's projection is one whose
result is looked at, each end of a projection is logged once. -/
theorem ends_logged (start : WarmEngine) (inputs : List WarmInput)
    (h : ∀ front i, front ++ [i] <+: inputs → dropsEnd i (runWarm start front) = false) :
    ∀ front i, front ++ [i] <+: inputs → EndsLogged i (runWarm start front) := by
  intro front i hfront
  have hkeeps := h front i hfront
  match i with
  | .input (.event host ev) => exact endsLogged_event hkeeps
  | .input (.libraries host modtab) => exact endsLogged_libraries host hkeeps
  | .input (.snapshot u) => exact endsLogged_snapshot u _
  | .pass p => exact WarmPass.endsLogged_pass hkeeps

/-- A program with two pointer variables: `root` at 0x4000 for a table whose slots are an
array of pointers to nodes, `tip` at 0x4008 for a leaf. -/
def arrayProgram : WarmEngine where
  engine := {
    dwarfInfo := some {
      typeRegistry := fun n =>
        if n = "table" then some {
          name := "table"
          byteSize := 16
          fields := [{
            name := "slots"
            byteOffset := 0
            byteSize := 8
            typeInfo := { name := "**node", byteSize := 8, isPointer := true } }] }
        else if n = "node" then some { name := "node", byteSize := 16 }
        else if n = "leaf" then some { name := "leaf", byteSize := 16 }
        else none }
    addrIndex := (({} : AddressIndex).insertGlobal 0x4000 8 "root"
      { name := "*table", byteSize := 8, isPointer := true } 0).insertGlobal 0x4008 8 "tip"
      { name := "*leaf", byteSize := 8, isPointer := true } 1
    topo := some [] }
  scanner := { maxDepth := 12 }

def nthEvent (kind : UInt8) (seq : UInt16) (addr value : UInt64) : WarmInput :=
  .input (.event .plain (numbered 1 seq (plainEvent kind addr value)))

/-- A block is stored in the slots of a table and another one in `tip`, which makes it a leaf. -/
def leafStored : List WarmInput :=
  [nthEvent EVENT_ALLOC 1 0x20000 0x40, nthEvent EVENT_WRITE 2 0x4000 0x20000,
    nthEvent EVENT_ALLOC 3 0x30000 0x40, nthEvent EVENT_WRITE 4 0x20000 0x30000,
    nthEvent EVENT_ALLOC 5 0x40000 0x40, nthEvent EVENT_WRITE 6 0x4008 0x40000]

/-- The leaf's address is stored in the array. -/
def leafInArray : WarmInput := nthEvent EVENT_WRITE 7 0x30000 0x40000

/-- The leaf becomes a node, and no epoch and no line says so. -/
theorem leaf_end_not_logged :
    ¬ (∀ front i, front ++ [i] <+: leafStored ++ [leafInArray] →
      EndsLogged i (runWarm arrayProgram front)) := by
  intro hall
  obtain ⟨epochs, lines, -, hlines, honce⟩ := hall leafStored leafInArray (List.prefix_refl _)
  have hends : ((leafInArray.apply (runWarm arrayProgram leafStored)).engine.world.heapAllocs.allocSize
        0x40000).isSome = true ∧
      ((runWarm arrayProgram leafStored).engine.world.stm.lookup 0x40000).map
        (fun p => p.typeInfo.name) = some "leaf" ∧
      ((leafInArray.apply (runWarm arrayProgram leafStored)).engine.world.stm.lookup 0x40000).map
        (fun p => p.typeInfo.name) = some "node" ∧
      (runWarm arrayProgram leafStored).engine.closes = some [] ∧
      (leafInArray.apply (runWarm arrayProgram leafStored)).engine.closes = some [] := by
    decide +kernel
  obtain ⟨htracked, hleaf, hnode, hbefore, hafter⟩ := hends
  obtain ⟨p, hp, hpname⟩ := Option.map_eq_some_iff.mp hleaf
  obtain ⟨q, hq, hqname⟩ := Option.map_eq_some_iff.mp hnode
  have hne : q.typeInfo.name ≠ p.typeInfo.name := by
    rw [hpname, hqname]
    decide
  have hstage (s : State) : stamping leafInArray s = s := rfl
  have hp' : (stamping leafInArray (runWarm arrayProgram leafStored).engine).world.stm.lookup
      0x40000 = some p := by
    rw [hstage]
    exact hp
  obtain ⟨-, seq, reason, hline⟩ := honce 0x40000 p (.replaced htracked hp' hq hne)
  rw [hafter, hbefore, Option.map_some, List.nil_append] at hlines
  rw [← Option.some.inj hlines] at hline
  cases hline

/-- The leaf's address is stored in `root`, and the block becomes a table. -/
def leafInRoot : WarmInput := nthEvent EVENT_WRITE 7 0x4000 0x40000

/-- The stamp at a variable is looked at, so that the end of the leaf is logged. -/
theorem table_end_logged :
    EndsLogged leafInRoot (runWarm arrayProgram leafStored) ∧
      (runWarm arrayProgram (leafStored ++ [leafInRoot])).engine.world.typeEpochs.buf.map
        (fun e => (e.addr, e.typeName)) = [(0x40000, "leaf")] := by
  have hkept : ∀ (k : ℕ) (hk : k < (leafStored ++ [leafInRoot]).length),
      dropsEnd (leafStored ++ [leafInRoot])[k]
        (runWarm arrayProgram ((leafStored ++ [leafInRoot]).take k)) = false := by
    decide +kernel
  have hlogged := ends_logged arrayProgram (leafStored ++ [leafInRoot])
    (Transition.forall_snoc_prefix (fun front i => dropsEnd i (runWarm arrayProgram front) = false)
      hkept)
  exact ⟨hlogged leafStored leafInRoot (List.prefix_refl _), by decide +kernel⟩

end Rtmap.Engine
