import Mathlib.Data.Set.Card
import Rtmap.Engine.FinalSweep
import Rtmap.Engine.Uncounted

/-!
# Replay without basic blocks

`run_replay` with and without `--no-bb`. The two runs drift apart in the counters
that BB_ENTRY advances; what they print differs where a heap hole is in its grace
in one of them only.
-/
namespace Rtmap.Engine
open Rtmap.Ring Transition

/-- What the loop of `run_replay` does next: a piece of the batch, or the end of it. -/
inductive ReplayStep where
  | piece (p : Piece)
  | endBatch

structure Replay where
  engine : State := {}
  total : ℕ := 0
  needFinalize : Bool := false

/-- The event that a step hands to `process_event`. -/
def ReplayStep.processed (noBb : Bool) : ReplayStep → Option Event
  | .piece (.event _ ev) => if noBb && ev.kind == EVENT_BB_ENTRY then none else some ev
  | _ => none

def processed (noBb : Bool) (ls : List ReplayStep) : List Event :=
  ls.filterMap (ReplayStep.processed noBb)

/-- The events since the last ALLOC, all of them where there is none. -/
def sinceAlloc (evs : List Event) : ℕ := (evs.reverse.takeWhile fun e => kindOf e ≠ .alloc).length

theorem sinceAlloc_append_singleton (evs : List Event) (ev : Event) :
    sinceAlloc (evs ++ [ev]) = if kindOf ev = .alloc then 0 else sinceAlloc evs + 1 := by
  rw [sinceAlloc, List.reverse_append, List.reverse_singleton, List.singleton_append,
    List.takeWhile_cons]
  by_cases h : kindOf ev = .alloc <;> simp [h, sinceAlloc]

namespace Replay

/-- The engine before the first batch: the globals at their link addresses. -/
def start (host : Host) (info : Option DwarfInfo) : Replay :=
  match info with
  | none => { engine := { topo := some [] } }
  | some info =>
      let r := populateGlobals host info 0 {} {}
      { engine := { addrIndex := r.1, world := r.2, dwarfInfo := some info, topo := some [] } }

/-- The end of a batch: finalize after calls, age the cache lines and collect
stale heap objects when the total says so. -/
def endBatch (orders : IndexOrders) (r : Replay) : Replay :=
  let s := r.engine
  let s := if r.needFinalize then { s with addrIndex := s.addrIndex.finalize orders } else s
  let s :=
    if r.total % 0x1000 = 0 then
      { s with world := { s.world with clTracker := s.world.clTracker.tick } }
    else s
  let s :=
    if r.total % 0x10000 = 0 then { s with heapGraph := s.heapGraph.gcStale r.total 500000 }
    else s
  { r with engine := s, needFinalize := false }

/-- One step of the loop. -/
def step (noBb : Bool) (orders : IndexOrders) (r : Replay) : ReplayStep → Replay
  | .piece (.event host ev) =>
      if noBb && ev.kind == EVENT_BB_ENTRY then r
      else {
        engine := processEvent host ev (tickInsn r.engine)
        total := r.total + 1
        needFinalize := r.needFinalize || ev.kind == EVENT_CALL }
  | .piece (.snapshot header cont) =>
      let s := (applyRegSnapshot (header :: cont)).2.elim r.engine fun u =>
        applySnapshotUpdate u r.engine
      { r with engine := tickInsn s, total := r.total + consumed header cont }
  | .endBatch => endBatch orders r

/-- The steps of a recording read in batches. -/
def steps (batches : List (List Slot)) : List ReplayStep :=
  batches.flatMap fun b => (pieces false 0 b).map .piece ++ [.endBatch]

def run (noBb : Bool) (orders : IndexOrders) (r : Replay) (ls : List ReplayStep) : Replay :=
  ls.foldl (step noBb orders) r

/-- `node_count` and `edge_count`. -/
noncomputable def nodeCount (w : World) : ℕ := {id | (w.nodes id).isSome}.ncard
noncomputable def edgeCount (w : World) : ℕ := {id | (w.edges id).isSome}.ncard

/-- The stream of a replay that ends here, its summary last. -/
noncomputable def lines (r : Replay) : Topology :=
  r.engine.topo.emit (.summary r.total (nodeCount r.engine.world) (edgeCount r.engine.world)
    r.engine.world.stm.map.entries.length r.engine.world.heapAllocs.allocs.entries.length
    r.engine.world.hazards.length)

end Replay

/-- The line up to the total event count. -/
def Line.untotalled : Line → Line
  | .summary _ nodes edges stm live hazards => .summary 0 nodes edges stm live hazards
  | .seqGap _ tid expected actual => .seqGap 0 tid expected actual
  | l => l

namespace Replay

/-- Two replays that agree but for the counters. -/
structure Alike (a b : Replay) : Prop where
  engine : a.engine.uncounted = b.engine.uncounted
  needFinalize : a.needFinalize = b.needFinalize

/-- The objects that the end of a batch collects. -/
def stale (r : Replay) : List UInt64 :=
  if r.total % 0x10000 = 0 then
    (r.engine.heapGraph.objects.entries.filter fun e => e.2.lastSeq < r.total - 500000).map Prod.fst
  else []

theorem lines_of_alike {a b : Replay} (h : Alike a b) :
    a.lines.map (List.map Line.untotalled) = b.lines.map (List.map Line.untotalled) := by
  have hcount (s : State) : nodeCount s.world = nodeCount s.uncounted.world := by
    have hset : {id | (s.world.nodes id).isSome} = {id | (s.uncounted.world.nodes id).isSome} := by
      ext id
      simp [State.uncounted, World.uncounted]
    rw [nodeCount, nodeCount, hset]
  have hhazards (s : State) : s.world.hazards.length = s.uncounted.world.hazards.length := by
    simp [State.uncounted, World.uncounted]
  have hrest (r : Replay) : r.lines.map (List.map Line.untotalled) =
      r.engine.uncounted.topo.map fun ls => ls.map Line.untotalled ++
        [.summary 0 (nodeCount r.engine.uncounted.world) (edgeCount r.engine.uncounted.world)
          r.engine.uncounted.world.stm.map.entries.length
          r.engine.uncounted.world.heapAllocs.allocs.entries.length
          r.engine.uncounted.world.hazards.length] := by
    rw [lines, Topology.emit, Option.map_map, hcount, hhazards]
    congr 1
    funext ls
    simp only [Function.comp_apply, List.map_append, List.map_cons, List.map_nil, Line.untotalled]
    rfl
  rw [hrest, hrest, h.engine]

theorem endBatch_engine (orders : IndexOrders) (r : Replay) : (endBatch orders r).engine =
    { r.engine with
      addrIndex := if r.needFinalize then r.engine.addrIndex.finalize orders else r.engine.addrIndex
      world := { r.engine.world with
        clTracker := if r.total % 0x1000 = 0 then r.engine.world.clTracker.tick
          else r.engine.world.clTracker }
      heapGraph := r.stale.foldl HeapGraph.removeObject r.engine.heapGraph } := by
  rw [endBatch, stale]
  by_cases hneed : r.needFinalize = true <;> by_cases hage : r.total % 0x1000 = 0 <;>
    by_cases hgc : r.total % 0x10000 = 0 <;>
    simp only [hneed, hage, hgc, if_true, if_false] <;> rfl

theorem endBatch_alike {orders : IndexOrders} {a b : Replay} (h : Alike a b)
    (hstale : a.stale = b.stale) : Alike (endBatch orders a) (endBatch orders b) := by
  have hend (r : Replay) : (endBatch orders r).engine.uncounted =
      { r.engine.uncounted with
        addrIndex := if r.needFinalize then r.engine.uncounted.addrIndex.finalize orders
          else r.engine.uncounted.addrIndex
        heapGraph := r.stale.foldl HeapGraph.removeObject r.engine.uncounted.heapGraph } := by
    rw [endBatch_engine]
    rfl
  exact ⟨by rw [hend, hend, h.engine, h.needFinalize, hstale], rfl⟩

theorem step_alike {orders : IndexOrders} {a b : Replay} (h : Alike a b) {l : ReplayStep}
    (hgrace : ∀ host ev, l = .piece (.event host ev) → kindOf ev = .write →
      Write.FreshHole ev a.engine → (Write.graceOver (countEvent (tickInsn a.engine)) ↔
        Write.graceOver (countEvent (tickInsn b.engine))))
    (hstale : l = .endBatch → a.stale = b.stale) :
    Alike (step false orders a l) (step true orders b l) := by
  have htick (s : State) : (tickInsn s).uncounted = s.uncounted := rfl
  cases l with
  | endBatch => exact endBatch_alike h (hstale rfl)
  | piece p =>
      cases p with
      | event host ev =>
          by_cases hbb : ev.kind = EVENT_BB_ENTRY
          · have hkind : kindOf ev = .bbEntry := by
              rw [kindOf, hbb]
              rfl
            have hevent : processEvent host ev (tickInsn a.engine) =
                tickInsn (countEvent (tickInsn a.engine)) := by
              rw [processEvent, processKind, hkind]
            have hskip : step true orders b (.piece (.event host ev)) = b := by
              simp [step, hbb]
            rw [hskip]
            refine ⟨?_, ?_⟩
            · simp only [step, Bool.false_and, Bool.false_eq_true, if_false, hevent]
              exact h.engine
            · simp only [step, Bool.false_and, Bool.false_eq_true, if_false, hbb]
              exact (Bool.or_false _).trans h.needFinalize
          · have hboth (noBb : Bool) : (noBb && ev.kind == EVENT_BB_ENTRY) = false := by
              simp [hbb]
            simp only [step, hboth, Bool.false_eq_true, if_false]
            refine ⟨processEvent_of_uncounted h.engine fun hkind hole => ?_, by rw [h.needFinalize]⟩
            exact hgrace host ev rfl hkind
              ⟨hole.heap, hole.room, hole.fresh, hole.fits, hole.outside, hole.between⟩
      | snapshot header cont =>
          refine ⟨?_, h.needFinalize⟩
          simp only [step, htick]
          cases (applyRegSnapshot (header :: cont)).2 with
          | none => exact h.engine
          | some u => exact congrArg (fun s : State => { s with world := { s.world with
              regs := fun i => u.regs.getD i.val 0 } }) h.engine

section Age
variable {noBb : Bool} {orders : IndexOrders}

theorem run_append (r : Replay) (front : List ReplayStep) (l : ReplayStep) :
    run noBb orders r (front ++ [l]) = step noBb orders (run noBb orders r front) l := by
  rw [run, List.foldl_append]
  rfl

theorem step_event (r : Replay) (host : Host) (ev : Event) :
    step noBb orders r (.piece (.event host ev)) =
      if noBb && ev.kind == EVENT_BB_ENTRY then r
      else {
        engine := processEvent host ev (tickInsn r.engine)
        total := r.total + 1
        needFinalize := r.needFinalize || ev.kind == EVENT_CALL } := rfl

theorem processed_event (host : Host) (ev : Event) :
    processed noBb [.piece (.event host ev)] =
      if noBb && ev.kind == EVENT_BB_ENTRY then [] else [ev] := by
  rw [processed, List.filterMap_cons, ReplayStep.processed]
  by_cases hbb : (noBb && ev.kind == EVENT_BB_ENTRY) = true
  · rw [if_pos hbb, if_pos hbb]
    rfl
  · rw [if_neg hbb, if_neg hbb]
    rfl

/-- The counters of events and of the last ALLOC, while `n` events went by since. -/
structure Aged (n : ℕ) (w : World) : Prop where
  le : w.lastAllocEventCount ≤ w.totalEventCount
  age : w.totalEventCount - w.lastAllocEventCount = n

theorem aged_endBatch {n : ℕ} {r : Replay} (h : Aged n r.engine.world) :
    Aged n (endBatch orders r).engine.world := by
  have hw : (endBatch orders r).engine.world.lastAllocEventCount =
        r.engine.world.lastAllocEventCount ∧
      (endBatch orders r).engine.world.totalEventCount = r.engine.world.totalEventCount := by
    rw [endBatch]
    dsimp only
    split_ifs <;> exact ⟨rfl, rfl⟩
  exact ⟨by rw [hw.1, hw.2]; exact h.le, by rw [hw.1, hw.2]; exact h.age⟩

theorem aged_run (host : Host) (info : Option DwarfInfo) (ls : List ReplayStep) :
    Aged (sinceAlloc (processed noBb ls)) (run noBb orders (start host info) ls).engine.world := by
  induction ls using List.reverseRecOn with
  | nil =>
      cases info with
      | none => exact ⟨Nat.le_refl _, rfl⟩
      | some info =>
          obtain ⟨m, hcore⟩ := core_populateGlobals host info 0 {} {}
          have htotal := of_core World.totalEventCount (v := { ({} : World) with stm := m }) hcore
          have hlast := of_core World.lastAllocEventCount (v := { ({} : World) with stm := m }) hcore
          constructor
          · exact hlast.le.trans (Nat.zero_le _)
          · show (populateGlobals host info 0 {} {}).2.totalEventCount -
              (populateGlobals host info 0 {} {}).2.lastAllocEventCount = 0
            rw [htotal, hlast]
            rfl
  | append_singleton front l ih =>
      rw [run_append]
      have happend : processed noBb (front ++ [l]) = processed noBb front ++ processed noBb [l] :=
        List.filterMap_append
      cases l with
      | endBatch =>
          rw [happend, show processed noBb [.endBatch] = [] from rfl, List.append_nil]
          exact aged_endBatch ih
      | piece p =>
          cases p with
          | snapshot header cont =>
              rw [happend, show processed noBb [.piece (.snapshot header cont)] = [] from rfl,
                List.append_nil]
              have hw : ∀ s : State, Aged (sinceAlloc (processed noBb front)) s.world →
                  Aged (sinceAlloc (processed noBb front)) (tickInsn ((applyRegSnapshot
                    (header :: cont)).2.elim s fun u => applySnapshotUpdate u s)).world := by
                intro s hs
                cases (applyRegSnapshot (header :: cont)).2 with
                | none => exact ⟨hs.le, hs.age⟩
                | some u => exact ⟨hs.le, hs.age⟩
              exact hw _ ih
          | event host' ev =>
              rw [happend, step_event]
              by_cases hbb : (noBb && ev.kind == EVENT_BB_ENTRY) = true
              · rw [if_pos hbb, processed_event, if_pos hbb, List.append_nil]
                exact ih
              · rw [if_neg hbb, processed_event, if_neg hbb, sinceAlloc_append_singleton]
                obtain ⟨htotal, -, hlast⟩ := counts_processEvent host' ev
                  (tickInsn (run noBb orders (start host info) front).engine)
                have hle : (tickInsn (run noBb orders (start host info)
                    front).engine).world.lastAllocEventCount ≤ (tickInsn (run noBb orders
                    (start host info) front).engine).world.totalEventCount := ih.le
                have hage : (tickInsn (run noBb orders (start host info)
                    front).engine).world.totalEventCount - (tickInsn (run noBb orders
                    (start host info) front).engine).world.lastAllocEventCount =
                      sinceAlloc (processed noBb front) := ih.age
                constructor
                · dsimp only
                  rw [htotal, hlast]
                  split <;> omega
                · dsimp only
                  rw [htotal, hlast]
                  split <;> omega

end Age

section Verdict
variable {orders : IndexOrders}

/-- A fresh hole is printed when its grace is over, and only then. -/
theorem hazardLines_hole (host : Host) {ev : Event} {s : State} (hkind : kindOf ev = .write)
    (hole : Write.FreshHole ev s) :
    (Write.graceOver (countEvent s) → ∃ l, (processEvent host ev s).linesOf Line.isHazard =
        (s.linesOf Line.isHazard).map (· ++ [l])) ∧
      (¬ Write.graceOver (countEvent s) →
        (processEvent host ev s).linesOf Line.isHazard = s.linesOf Line.isHazard) := by
  have hheapLines (l : Line) (h : l.ofHeap = true) (_ : l.number = seqOf ev) :
      l.isHazard = false := Line.isHazard_of_ofHeap h
  have hnodeLines (l : Line) (h : l.ofNode = true) (_ : l.number = seqOf ev) :
      l.isHazard = false := Line.isHazard_of_ofNode h
  set u := Write.beforeBounds host ev (countEvent s) with hu
  have hole' : Write.FreshHole ev u := (Write.freshHole_beforeBounds host ev (countEvent s)
    hole.heap).mpr ⟨hole.heap, hole.room, hole.fresh, hole.fits, hole.outside, hole.between⟩
  have hulines : u.linesOf Line.isHazard = s.linesOf Line.isHazard := by
    rw [hu, Write.beforeBounds, Write.linesOf_propagate hheapLines,
      Write.linesOf_fields hheapLines]
    exact (Write.linesOf_cohere _).trans Write.linesOf_observe
  have hevent : (processEvent host ev s).linesOf Line.isHazard =
      (Write.bounds ev u).linesOf Line.isHazard := by
    rw [processEvent, processKind, hkind]
    dsimp only
    rw [processWrite_eq, if_pos (show (countEvent s).heapOracle.isHeap ev.addr = true from hole.heap),
      Write.linesOf_node hnodeLines]
  have hover : Write.graceOver u ↔ Write.graceOver (countEvent s) :=
    Write.graceOver_beforeBounds host ev _
  obtain ⟨hz, hzkind, hcheck⟩ : ∃ h : HeapHazard, h.kind = .heapHole ∧
      u.world.heapAllocs.checkWriteBounds ev.addr ev.size u.world.stm = some h := by
    obtain ⟨e, he⟩ := Option.isSome_iff_exists.mp hole'.fits
    rw [HeapAllocTracker.checkWriteBounds, he, hole'.outside]
    dsimp only
    rw [if_pos hole'.between]
    exact ⟨_, rfl, rfl⟩
  have hold : (u.world.hazards.any fun prev => prev.writeAddr == hz.writeAddr) = false := by
    rw [Write.writeAddr_of_checkWriteBounds hcheck, List.any_eq_false]
    intro y hy
    simpa using hole'.fresh y hy
  have hgrace : Write.inGrace u.world hz = true ↔ ¬ Write.graceOver (countEvent s) := by
    rw [← hover, Write.graceOver, Write.inGrace, hzkind]
    simp only [beq_self_eq_true, Bool.true_and, decide_eq_true_eq]
    omega
  have hemit (z : HeapHazard) (t : State) (ht : t.topo = u.topo) :
      (t.emit (Write.hazardLine ev z)).linesOf Line.isHazard =
        (s.linesOf Line.isHazard).map (· ++ [Write.hazardLine ev z]) := by
    rw [linesOf_emit rfl, ← hulines, State.linesOf, State.linesOf, ht]
  rw [hevent, Write.bounds, if_pos hole'.room, hcheck]
  dsimp only
  rw [hold, Bool.or_false]
  constructor
  · intro h
    rw [if_neg fun hin => hgrace.mp hin h]
    exact ⟨_, hemit _ _ rfl⟩
  · intro h
    rw [if_pos (hgrace.mpr h)]
    exact hulines

/-- The hazard lines of a stream that ends here. -/
theorem hazardLines_lines (r : Replay) :
    (r.lines.map (List.map Line.untotalled)).map (List.filter Line.isHazard) =
      r.engine.linesOf Line.isHazard := by
  have hfilter (ls : List Line) : (ls.map Line.untotalled).filter Line.isHazard =
      ls.filter Line.isHazard := by
    induction ls with
    | nil => rfl
    | cons l ls ih => cases l <;> simp [Line.untotalled, Line.isHazard, List.filter_cons, ih]
  rw [lines, Topology.emit, State.linesOf, Option.map_map, Option.map_map]
  congr 1
  funext ls
  simp only [Function.comp_apply, hfilter, List.filter_append]
  simp [Line.isHazard]

theorem isSome_topo_run (noBb : Bool) (orders : IndexOrders) (host : Host) (info : Option DwarfInfo)
    (ls : List ReplayStep) : (run noBb orders (start host info) ls).engine.topo.isSome := by
  have hevent (host : Host) (ev : Event) (s : State) (h : s.topo.isSome) :
      (processEvent host ev s).topo.isSome := by
    have hlines : (processEvent host ev s).loopLines = s.loopLines := loopLines_processEvent
    have hloop := congrArg Option.isSome hlines
    simpa [State.loopLines, State.linesOf, h] using hloop
  induction ls using List.reverseRecOn with
  | nil => cases info <;> rfl
  | append_singleton front l ih =>
      rw [run_append]
      cases l with
      | endBatch =>
          rw [step, endBatch]
          dsimp only
          split_ifs <;> exact ih
      | piece p =>
          cases p with
          | event host ev =>
              rw [step_event]
              split
              · exact ih
              · exact hevent host ev (tickInsn _) ih
          | snapshot header cont =>
              simp only [step]
              cases (applyRegSnapshot (header :: cont)).2 with
              | none => exact ih
              | some u => exact ih

theorem graceOver_iff {n : ℕ} {s : State} (h : Aged n s.world) :
    Write.graceOver (countEvent (tickInsn s)) ↔ Write.HEAP_HOLE_GRACE ≤ n + 1 := by
  have hle := h.le
  have hage := h.age
  show Write.HEAP_HOLE_GRACE ≤ s.world.totalEventCount + 1 - s.world.lastAllocEventCount ↔ _
  omega

/-- Fewer than 255 events lie between the last ALLOC and here, or not, with and
without the basic blocks alike. -/
def SameGrace (front : List ReplayStep) : Prop :=
  Write.HEAP_HOLE_GRACE ≤ sinceAlloc (processed false front) + 1 ↔
    Write.HEAP_HOLE_GRACE ≤ sinceAlloc (processed true front) + 1

/-- A write into a fresh hole in whose grace the runs differ is printed by one of
them only. -/
theorem lines_ne_of_hole {host : Host} {info : Option DwarfInfo} {front : List ReplayStep}
    (h : Alike (run false orders (start host info) front) (run true orders (start host info) front))
    {host' : Host} {ev : Event} (hkind : kindOf ev = .write)
    (hole : Write.FreshHole ev (run false orders (start host info) front).engine)
    (hgrace : ¬ SameGrace front) :
    (run false orders (start host info) (front ++ [.piece (.event host' ev)])).lines.map
        (List.map Line.untotalled) ≠
      (run true orders (start host info) (front ++ [.piece (.event host' ev)])).lines.map
        (List.map Line.untotalled) := by
  have hbb : ev.kind ≠ EVENT_BB_ENTRY := by
    intro hbb
    rw [kindOf, hbb] at hkind
    cases hkind
  have hstep (noBb : Bool) (r : Replay) :
      (step noBb orders r (.piece (.event host' ev))).engine =
        processEvent host' ev (tickInsn r.engine) := by
    rw [step_event, if_neg (by simp [hbb])]
  have hover (noBb : Bool) : Write.graceOver (countEvent (tickInsn
      (run noBb orders (start host info) front).engine)) ↔
        Write.HEAP_HOLE_GRACE ≤ sinceAlloc (processed noBb front) + 1 :=
    graceOver_iff (aged_run host info front)
  have htopo : (run false orders (start host info) front).engine.topo =
      (run true orders (start host info) front).engine.topo := by
    have hsame := congrArg State.topo h.engine
    exact hsame
  have hsome := isSome_topo_run false orders host info front
  intro heq
  have hlines := congrArg (Option.map (List.filter Line.isHazard)) heq
  rw [hazardLines_lines, hazardLines_lines, run_append, run_append, hstep, hstep] at hlines
  obtain ⟨hin, hout⟩ := hazardLines_hole host' hkind
    (s := tickInsn (run false orders (start host info) front).engine)
    ⟨hole.heap, hole.room, hole.fresh, hole.fits, hole.outside, hole.between⟩
  obtain ⟨hin', hout'⟩ := hazardLines_hole host' hkind
    (s := tickInsn (run true orders (start host info) front).engine)
    (Write.freshHole_of_uncounted h.engine hole)
  obtain ⟨ls, hls⟩ := Option.isSome_iff_exists.mp hsome
  have hls' := htopo ▸ hls
  have hbefore (noBb : Bool)
      (hnow : (run noBb orders (start host info) front).engine.topo = some ls) :
      (tickInsn (run noBb orders (start host info) front).engine).linesOf Line.isHazard =
        some (ls.filter Line.isHazard) := by
    show (run noBb orders (start host info) front).engine.topo.map _ = _
    rw [hnow]
    rfl
  rw [hover] at hin hout hin' hout'
  by_cases hf : Write.HEAP_HOLE_GRACE ≤ sinceAlloc (processed false front) + 1
  · have ht : ¬ Write.HEAP_HOLE_GRACE ≤ sinceAlloc (processed true front) + 1 :=
      fun ht => hgrace ⟨fun _ => ht, fun _ => hf⟩
    obtain ⟨l, hl⟩ := hin hf
    rw [hl, hout' ht, hbefore false hls, hbefore true hls'] at hlines
    simp at hlines
  · have ht : Write.HEAP_HOLE_GRACE ≤ sinceAlloc (processed true front) + 1 := by
      by_contra ht
      exact hgrace ⟨fun h => absurd h hf, fun h => absurd h ht⟩
    obtain ⟨l, hl⟩ := hin' ht
    rw [hl, hout hf, hbefore false hls, hbefore true hls'] at hlines
    simp at hlines

end Verdict

/-- Along a replay whose batches collect the same objects with and without the basic
blocks, the two runs print the same lines at every point exactly when no write hits
a fresh hole whose grace is over in one run and not in the other. -/
theorem no_bb_agrees_iff (host : Host) (info : Option DwarfInfo) (orders : IndexOrders)
    (batches : List (List Slot))
    (hstale : ∀ front, front ++ [.endBatch] <+: steps batches →
      (run false orders (start host info) front).stale =
        (run true orders (start host info) front).stale) :
    (∀ front, front <+: steps batches →
      (run false orders (start host info) front).lines.map (List.map Line.untotalled) =
        (run true orders (start host info) front).lines.map (List.map Line.untotalled)) ↔
      ∀ front host' ev, front ++ [.piece (.event host' ev)] <+: steps batches →
        kindOf ev = .write →
        Write.FreshHole ev (run false orders (start host info) front).engine →
        SameGrace front := by
  have halike (hsame : ∀ front host' ev, front ++ [.piece (.event host' ev)] <+: steps batches →
      Alike (run false orders (start host info) front) (run true orders (start host info) front) →
      kindOf ev = .write → Write.FreshHole ev (run false orders (start host info) front).engine →
      SameGrace front) : ∀ front, front <+: steps batches →
        Alike (run false orders (start host info) front)
          (run true orders (start host info) front) := by
    intro front
    induction front using List.reverseRecOn with
    | nil => exact fun _ => ⟨rfl, rfl⟩
    | append_singleton front l ih =>
        intro hl
        have hfront := ih ((List.prefix_append _ _).trans hl)
        rw [run_append, run_append]
        refine step_alike hfront (fun host' ev hev hkind hole => ?_) fun hend => ?_
        · rw [graceOver_iff (aged_run host info front), graceOver_iff (aged_run host info front)]
          exact hsame front host' ev (hev ▸ hl) hfront hkind hole
        · exact hstale front (hend ▸ hl)
  constructor
  · intro h
    have hsame (front : List ReplayStep) (host' : Host) (ev : Event)
        (hl : front ++ [.piece (.event host' ev)] <+: steps batches)
        (hfront : Alike (run false orders (start host info) front)
          (run true orders (start host info) front))
        (hkind : kindOf ev = .write)
        (hole : Write.FreshHole ev (run false orders (start host info) front).engine) :
        SameGrace front := by
      by_contra hgrace
      exact lines_ne_of_hole hfront hkind hole hgrace (h _ hl)
    intro front host' ev hl
    exact hsame front host' ev hl (halike hsame front ((List.prefix_append _ _).trans hl))
  · intro h front hl
    exact lines_of_alike (halike (fun front host' ev hl _ => h front host' ev hl) front hl)

/-- Two blocks are allocated, `n` basic blocks entered, and the hole between the
two written. -/
def holeAfter (n : ℕ) : List Slot :=
  (.plain, plainEvent EVENT_ALLOC 0x10000 16) :: (.plain, plainEvent EVENT_ALLOC 0x20000 16) ::
    (List.replicate n (.plain, plainEvent EVENT_BB_ENTRY 0x400000 0) ++
      [(.plain, plainEvent EVENT_WRITE 0x18000 7)])

theorem front_of_endBatch {ps : List Piece} {front : List ReplayStep}
    (h : front ++ [.endBatch] <+: ps.map .piece ++ [.endBatch]) : front = ps.map .piece := by
  induction ps generalizing front with
  | nil =>
      cases front with
      | nil => rfl
      | cons l front =>
          have hlen := h.length_le
          simp at hlen
  | cons p ps ih =>
      cases front with
      | nil =>
          have hhead := (List.cons_prefix_cons.mp h).1
          cases hhead
      | cons l front =>
          obtain ⟨rfl, htail⟩ := List.cons_prefix_cons.mp h
          rw [ih htail, List.map_cons]

/-- After a single basic block the hole is in its grace in both runs. -/
theorem no_bb_agrees_in_grace :
    (run false .plain (start .plain none) (steps [holeAfter 1])).lines.map
        (List.map Line.untotalled) =
      (run true .plain (start .plain none) (steps [holeAfter 1])).lines.map
        (List.map Line.untotalled) := by
  refine (no_bb_agrees_iff .plain none .plain [holeAfter 1] ?_).mpr ?_ _ (List.prefix_refl _)
  · intro front hfront
    rw [steps, List.flatMap_singleton] at hfront
    rw [front_of_endBatch hfront]
    decide +kernel
  · intro front host' ev hfront _ _
    have hlen := hfront.length_le
    have hcount (noBb : Bool) : sinceAlloc (processed noBb front) ≤ front.length := by
      have htake := (List.takeWhile_sublist (fun e => decide (kindOf e ≠ .alloc))
        (l := (processed noBb front).reverse)).length_le
      rw [List.length_reverse] at htake
      exact htake.trans (List.length_filterMap_le _ _)
    have hsteps : (steps [holeAfter 1]).length = 5 := by decide +kernel
    have hwith := hcount false
    have hwithout := hcount true
    rw [hsteps, List.length_append, List.length_singleton] at hlen
    rw [SameGrace, Write.HEAP_HOLE_GRACE]
    omega

/-- With 255 basic blocks in between the hole is a hazard, without them it is in
its grace. -/
theorem no_bb_misses_hole :
    ¬ ∀ (host : Host) (info : Option DwarfInfo) (orders : IndexOrders) (batches : List (List Slot)),
      (run false orders (start host info) (steps batches)).lines.map (List.map Line.untotalled) =
        (run true orders (start host info) (steps batches)).lines.map
          (List.map Line.untotalled) := by
  intro hall
  have hlines := congrArg (Option.map (List.filter Line.isHazard))
    (hall .plain none .plain [holeAfter 255])
  rw [hazardLines_lines, hazardLines_lines] at hlines
  have hwith : ((run false .plain (start .plain none) (steps [holeAfter 255])).engine.linesOf
      Line.isHazard).map List.length = some 1 := by decide +kernel
  have hwithout : ((run true .plain (start .plain none) (steps [holeAfter 255])).engine.linesOf
      Line.isHazard).map List.length = some 0 := by decide +kernel
  rw [hlines, hwithout] at hwith
  exact absurd hwith (by decide)

end Replay

end Rtmap.Engine
