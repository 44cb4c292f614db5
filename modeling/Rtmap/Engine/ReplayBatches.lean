import Rtmap.Engine.RegisterSnapshots
import Rtmap.Engine.RegisterValues

/-!
# Recordings read in batches

`run_replay` and `replay_to_checkpoints` read a recording 4096 slots at a time. Where no
register snapshot lies across two batches, the batches hold the pieces of the whole
recording, and their ends do no more than finalize the index, age the cache lines and
collect stale heap objects.
-/
namespace Rtmap.Engine
open Rtmap.Ring Recording Streams

/-- The slots that `run_replay` and `replay_to_checkpoints` ask for at a time. -/
def READ_BATCH : ℕ := 4096

/-- What a recording is made of: events of one slot, and register snapshots of seven. -/
inductive Recorded where
  | event (x : Slot) (hx : x.2.kind ≠ EVENT_REG_SNAPSHOT)
  | snapshot (x : Slot) (six : Fin 6 → Slot) (hx : x.2.kind = EVENT_REG_SNAPSHOT)
      (hsix : ∀ i, (six i).2.kind = EVENT_REG_SNAPSHOT)

namespace Recorded

def slots : Recorded → List Slot
  | event x _ => [x]
  | snapshot x six _ _ => x :: List.ofFn six

/-- The piece of a batch that they are meant as. -/
def piece : Recorded → Piece
  | event x _ => .event x.1 x.2
  | snapshot x six _ _ => .snapshot x.2 ((List.ofFn six).map Prod.snd)

theorem slots_ne_nil (u : Recorded) : u.slots ≠ [] := by
  cases u <;> exact List.cons_ne_nil _ _

end Recorded

/-- The slots that a piece takes out of a batch. -/
def Piece.size : Piece → ℕ
  | event _ _ => 1
  | snapshot header cont => consumed header cont

theorem Recorded.size_piece (u : Recorded) : u.piece.size = u.slots.length := by
  cases u with
  | event x hx => rfl
  | snapshot x six hx hsix =>
      have hmap : ((List.ofFn six).map Prod.snd).length = 6 := by
        rw [List.length_map, List.length_ofFn]
      have hall : ((List.ofFn six).map Prod.snd).all (·.kind == EVENT_REG_SNAPSHOT) = true := by
        rw [List.all_eq_true]
        intro e he
        obtain ⟨y, hy, rfl⟩ := List.mem_map.mp he
        obtain ⟨i, rfl⟩ := List.mem_ofFn.mp hy
        exact beq_iff_eq.mpr (hsix i)
      have happly : (applyRegSnapshot (x.2 :: (List.ofFn six).map Prod.snd)).1 = 7 := by
        rw [applyRegSnapshot, if_neg (not_not.mpr hx), if_neg (by omega),
          List.take_of_length_le hmap.le, if_pos hall]
      rw [slots, List.length_cons, List.length_ofFn, piece, Piece.size, consumed, happly]
      rfl

/-- Read from the start of one of them, a batch of them falls into their pieces. -/
theorem pieces_slots (us : List Recorded) :
    pieces false 0 (us.flatMap Recorded.slots) = us.map Recorded.piece := by
  induction us with
  | nil => rfl
  | cons u us ih =>
      rw [List.flatMap_cons, List.map_cons, ← ih]
      cases u with
      | event x hx =>
          rw [Recorded.slots, List.singleton_append, pieces, Bool.false_and, if_neg Bool.false_ne_true,
            if_neg hx]
          rfl
      | snapshot x six hx hsix =>
          have hall : ∀ y ∈ List.ofFn six, y.2.kind = EVENT_REG_SNAPSHOT := by
            intro y hy
            obtain ⟨i, rfl⟩ := List.mem_ofFn.mp hy
            exact hsix i
          exact pieces_snapshot hx List.length_ofFn hall

/-- Whole batches are batches of them. -/
theorem batches_of_whole {us : List Recorded} {batches : List (List Slot)}
    (h : Whole (us.map Recorded.slots) batches) :
    ∃ gs : List (List Recorded), gs.flatten = us ∧
      batches = gs.map fun g => g.flatMap Recorded.slots := by
  obtain ⟨raw, hraw, rfl⟩ := h
  induction raw generalizing us with
  | nil =>
      have hus : us = [] := List.map_eq_nil_iff.mp hraw.symm
      exact ⟨[], hus.symm, rfl⟩
  | cons r raw ih =>
      rw [List.flatten_cons] at hraw
      obtain ⟨g, rest, rfl, hg, hrest⟩ := List.map_eq_append_iff.mp hraw.symm
      obtain ⟨gs, hflat, hgs⟩ := ih hrest.symm
      refine ⟨g :: gs, by rw [List.flatten_cons, hflat], ?_⟩
      rw [List.map_cons, List.map_cons, hgs, ← hg, List.flatMap_def]

theorem pieces_of_whole {us : List Recorded} {batches : List (List Slot)}
    (h : Whole (us.map Recorded.slots) batches) :
    batches.flatMap (pieces false 0) = us.map Recorded.piece := by
  obtain ⟨gs, rfl, rfl⟩ := batches_of_whole h
  induction gs with
  | nil => rfl
  | cons g gs ih =>
      rw [List.map_cons, List.flatMap_cons, pieces_slots, List.flatten_cons, List.map_append,
        ih ⟨gs.map (List.map Recorded.slots), by rw [List.map_flatten], by
          rw [List.map_map]
          exact List.map_congr_left fun g _ => List.flatMap_def⟩]

section Maintenance

/-- The walk over a whole recording, with the end of a batch after every `max` slots. -/
def maintained (max : ℕ) : ℕ → List Piece → List ReplayStep
  | n, [] => if n = 0 then [] else [.endBatch]
  | n, p :: ps =>
      if n + p.size < max then .piece p :: maintained max (n + p.size) ps
      else .piece p :: .endBatch :: maintained max 0 ps

/-- The pieces of a batch that is full, or the last one. -/
theorem maintained_append {max n : ℕ} {us : List Recorded} (rest : List Piece) (hne : us ≠ [])
    (hsize : n + (us.flatMap Recorded.slots).length = max ∨
      n + (us.flatMap Recorded.slots).length < max ∧ rest = []) :
    maintained max n (us.map Recorded.piece ++ rest) =
      (us.map Recorded.piece).map .piece ++ .endBatch :: maintained max 0 rest := by
  induction us generalizing n with
  | nil => exact absurd rfl hne
  | cons u us ih =>
      have hpos := List.length_pos_iff.mpr u.slots_ne_nil
      rw [List.flatMap_cons, List.length_append, ← u.size_piece] at hsize
      rw [← u.size_piece] at hpos
      simp only [List.map_cons, List.cons_append, maintained]
      cases us with
      | nil =>
          rcases hsize with hfull | ⟨hless, rfl⟩
          · rw [if_neg (by simp only [List.flatMap_nil, List.length_nil] at hfull; omega)]
            rfl
          · rw [if_pos (by simp only [List.flatMap_nil, List.length_nil] at hless; omega)]
            simp only [List.map_nil, List.nil_append, maintained, if_true]
            rw [if_neg (by omega)]
      | cons v us =>
          have hmore := List.length_pos_iff.mpr v.slots_ne_nil
          have hless : n + u.piece.size < max := by
            simp only [List.flatMap_cons, List.length_append] at hsize
            omega
          rw [if_pos hless, ih (List.cons_ne_nil _ _) (by
            rw [Nat.add_assoc]
            exact hsize)]

/-- The steps of whole batches are those of one walk with the ends of batches in it. -/
theorem steps_of_whole {max : ℕ} {us : List Recorded} (hmax : 0 < max)
    (h : Whole (us.map Recorded.slots) (cut max (us.flatMap Recorded.slots))) :
    Replay.steps (cut max (us.flatMap Recorded.slots)) =
      maintained max 0 (us.map Recorded.piece) := by
  obtain ⟨gs, rfl, hgs⟩ := batches_of_whole h
  clear h
  rw [hgs]
  induction gs with
  | nil => rfl
  | cons g gs ih =>
      obtain ⟨hne, hcut, hsize⟩ := cut_cons hmax hgs
      have hrest : (gs.map fun g => g.flatMap Recorded.slots).flatten =
          gs.flatten.flatMap Recorded.slots := by
        rw [List.flatMap_def, List.map_flatten, List.flatten_flatten, List.map_map]
        rfl
      rw [hrest] at hcut
      have hg : g ≠ [] := by
        rintro rfl
        exact hne rfl
      have hlast : 0 + (g.flatMap Recorded.slots).length = max ∨
          0 + (g.flatMap Recorded.slots).length < max ∧ gs.flatten.map Recorded.piece = [] := by
        rw [Nat.zero_add]
        refine hsize.imp_right fun ⟨hless, hnone⟩ => ⟨hless, ?_⟩
        rw [List.map_eq_nil_iff.mp hnone]
        rfl
      rw [List.map_cons, Replay.steps, List.flatMap_cons, pieces_slots, List.flatten_cons,
        List.map_append, maintained_append _ hg hlast, ← ih hcut, List.append_assoc]
      rfl

end Maintenance

/-- States with the same nodes, edges, frames, live blocks and register values. -/
structure SameTraces (s t : State) : Prop where
  untyped : s.untyped = t.untyped
  registers : s.bareRegs = t.bareRegs

/-- States with the same types and hazards, too. -/
structure SameTypes (s t : State) : Prop extends SameTraces s t where
  uncounted : s.uncounted = t.uncounted
  snapshots : s.world.hazards.map HeapHazard.regSnapshot = t.world.hazards.map HeapHazard.regSnapshot

section Pieces
variable {noBb : Bool} {orders : IndexOrders} {s t : State}

theorem SameTypes.hazards (h : SameTypes s t) : s.world.hazards = t.world.hazards := by
  have hbare : s.world.hazards.map HeapHazard.unsnapped = t.world.hazards.map HeapHazard.unsnapped :=
    congrArg (fun x : State => x.world.hazards) h.uncounted
  have hpair (hz : HeapHazard) : hz = { hz.unsnapped with regSnapshot := hz.regSnapshot } := rfl
  refine List.ext_getElem? fun i => ?_
  have hbarei := congrArg (·[i]?) hbare
  have hsnapi := congrArg (·[i]?) h.snapshots
  simp only [List.getElem?_map] at hbarei hsnapi
  cases hs : s.world.hazards[i]? with
  | none =>
      rw [hs] at hbarei
      exact (Option.map_eq_none_iff.mp hbarei.symm).symm
  | some a =>
      rw [hs] at hbarei hsnapi
      obtain ⟨b, hb, hunsnapped⟩ := Option.map_eq_some_iff.mp hbarei.symm
      rw [hb, Option.map_some, Option.map_some] at hsnapi
      rw [hb, hpair a, hpair b, hunsnapped, Option.some.inj hsnapi]

theorem SameTraces.processEvent (h : SameTraces s t) (host : Host) (ev : Event) :
    SameTraces (processEvent host ev (tickInsn s)) (processEvent host ev (tickInsn t)) := by
  have hticked : (tickInsn s).untyped = (tickInsn t).untyped := congrArg tickInsn h.untyped
  have hregs : (tickInsn s).bareRegs = (tickInsn t).bareRegs := h.registers
  exact ⟨untyped_processEvent hticked, bareRegs_processEvent hregs hticked⟩

theorem SameTypes.processEvent (h : SameTypes s t) (host : Host) (ev : Event) :
    SameTypes (processEvent host ev (tickInsn s)) (processEvent host ev (tickInsn t)) := by
  have htraces := h.toSameTraces.processEvent host ev
  have htotal := congrArg (fun x : State => x.world.totalEventCount) h.untyped
  have hlast := congrArg (fun x : State => x.world.lastAllocEventCount) h.untyped
  have hgrace : Write.graceOver (countEvent (tickInsn s)) ↔
      Write.graceOver (countEvent (tickInsn t)) := by
    show Write.HEAP_HOLE_GRACE ≤ s.world.totalEventCount + 1 - s.world.lastAllocEventCount ↔
      Write.HEAP_HOLE_GRACE ≤ t.world.totalEventCount + 1 - t.world.lastAllocEventCount
    rw [show s.world.totalEventCount = t.world.totalEventCount from htotal,
      show s.world.lastAllocEventCount = t.world.lastAllocEventCount from hlast]
  have hticked : (tickInsn s).uncounted = (tickInsn t).uncounted := h.uncounted
  have huncounted := @processEvent_of_uncounted host ev _ _ hticked fun _ _ => hgrace
  refine ⟨htraces, huncounted, ?_⟩
  have hcount (x : State) : (x.world.hazards.map HeapHazard.regSnapshot).length =
      x.uncounted.world.hazards.length := by
    rw [List.length_map]
    exact Eq.symm (List.length_map ..)
  have hlength : ((Rtmap.Engine.processEvent host ev (tickInsn s)).world.hazards.map
      HeapHazard.regSnapshot).length = ((Rtmap.Engine.processEvent host ev (tickInsn t)).world.hazards.map
        HeapHazard.regSnapshot).length := by
    rw [hcount, hcount, huncounted]
  obtain ⟨k, hk⟩ := snapshots_processEvent host ev (tickInsn s)
  obtain ⟨l, hl⟩ := snapshots_processEvent host ev (tickInsn t)
  have hbefore : (tickInsn s).world.hazards.map HeapHazard.regSnapshot =
      (tickInsn t).world.hazards.map HeapHazard.regSnapshot := h.snapshots
  rw [hk, hl, hbefore, List.length_append, List.length_append, List.length_replicate,
    List.length_replicate] at hlength
  rw [hk, hl, hbefore, htraces.registers, Nat.add_left_cancel hlength]

/-- What a piece of a batch does to such states. -/
theorem SameTraces.piece {a b : Replay} (h : SameTraces a.engine b.engine) (p : Piece) :
    SameTraces (Replay.step noBb orders a (.piece p)).engine
      (Replay.step noBb orders b (.piece p)).engine := by
  cases p with
  | event host ev =>
      rw [Replay.step_event, Replay.step_event]
      split
      · exact h
      · exact h.processEvent host ev
  | snapshot header cont =>
      simp only [Replay.step]
      cases (applyRegSnapshot (header :: cont)).2 with
      | none => exact ⟨congrArg tickInsn h.untyped, h.registers⟩
      | some u =>
          refine ⟨?_, ?_⟩
          · exact congrArg (fun x : State => tickInsn { x with world := { x.world with
              regs := fun i => u.regs.getD i.val 0 } }) h.untyped
          · exact bareRegs_withRegs u.threadId (s := { a.engine with world := { a.engine.world with
              regs := fun i => u.regs.getD i.val 0 } }) (t := { b.engine with
                world := { b.engine.world with regs := fun i => u.regs.getD i.val 0 } })
              h.registers fun _ _ hab => ShadowRegisterFile.bare_applySnapshot hab ..

theorem SameTypes.piece {a b : Replay} (h : SameTypes a.engine b.engine) (p : Piece) :
    SameTypes (Replay.step noBb orders a (.piece p)).engine
      (Replay.step noBb orders b (.piece p)).engine := by
  have htraces := @SameTraces.piece noBb orders _ _ h.toSameTraces p
  cases p with
  | event host ev =>
      rw [Replay.step_event, Replay.step_event]
      split
      · exact h
      · exact h.processEvent host ev
  | snapshot header cont =>
      refine ⟨htraces, ?_, ?_⟩
      · simp only [Replay.step]
        cases (applyRegSnapshot (header :: cont)).2 with
        | none => exact h.uncounted
        | some u => exact congrArg (fun x : State => { x with world := { x.world with
            regs := fun i => u.regs.getD i.val 0 } }) h.uncounted
      · simp only [Replay.step]
        cases (applyRegSnapshot (header :: cont)).2 with
        | none => exact h.snapshots
        | some u => exact h.snapshots

/-- The end of a batch does nothing to the traces, of an index in order. -/
theorem SameTraces.endBatch {r : Replay} (hsorted : r.engine.addrIndex.staticsSorted = true) :
    SameTraces (Replay.endBatch orders r).engine r.engine := by
  have hidx : (if r.needFinalize then r.engine.addrIndex.finalize orders else r.engine.addrIndex) =
      r.engine.addrIndex := by
    rw [AddressIndex.finalize_of_sorted hsorted, ite_self]
  rw [Replay.endBatch_engine, hidx]
  exact ⟨rfl, rfl⟩

/-- And nothing to the types, if it collects nothing. -/
theorem SameTypes.endBatch {r : Replay} (hsorted : r.engine.addrIndex.staticsSorted = true)
    (hstale : r.stale = []) : SameTypes (Replay.endBatch orders r).engine r.engine := by
  have hidx : (if r.needFinalize then r.engine.addrIndex.finalize orders else r.engine.addrIndex) =
      r.engine.addrIndex := by
    rw [AddressIndex.finalize_of_sorted hsorted, ite_self]
  have hend := Replay.endBatch_engine orders r
  rw [hidx, hstale] at hend
  refine ⟨SameTraces.endBatch hsorted, ?_, ?_⟩
  · rw [hend]
    rfl
  · rw [hend]

end Pieces

section Runs
variable {noBb : Bool} {orders : IndexOrders}

theorem staticsSorted_step {r : Replay} (h : r.engine.addrIndex.staticsSorted = true)
    (l : ReplayStep) : (Replay.step noBb orders r l).engine.addrIndex.staticsSorted = true := by
  cases l with
  | endBatch =>
      have hidx := congrArg State.addrIndex (@SameTraces.endBatch orders _ h).untyped
      exact (congrArg AddressIndex.staticsSorted hidx).trans h
  | piece p =>
      cases p with
      | event host ev =>
          rw [Replay.step_event]
          split
          · exact h
          · exact staticsSorted_processEvent host ev _ h
      | snapshot header cont =>
          simp only [Replay.step]
          cases (applyRegSnapshot (header :: cont)).2 <;> exact h

theorem staticsSorted_start (host : Host) (info : Option DwarfInfo) :
    (Replay.start host info).engine.addrIndex.staticsSorted = true := by
  cases info with
  | none => rfl
  | some info => exact AddressIndex.staticsSorted_finalize ..

/-- The steps that are pieces. -/
def piecesOnly (ls : List ReplayStep) : List ReplayStep :=
  ls.filter fun l => match l with
    | .piece _ => true
    | .endBatch => false

theorem piecesOnly_steps (batches : List (List Slot)) :
    piecesOnly (Replay.steps batches) = (batches.flatMap (pieces false 0)).map .piece := by
  have hpieces (ps : List Piece) : piecesOnly (ps.map .piece) = ps.map .piece := by
    rw [piecesOnly, List.filter_eq_self]
    intro l hl
    obtain ⟨p, -, rfl⟩ := List.mem_map.mp hl
    rfl
  induction batches with
  | nil => rfl
  | cons b batches ih =>
      rw [Replay.steps, List.flatMap_cons, List.flatMap_cons, List.map_append, ← ih, piecesOnly,
        List.filter_append, List.filter_append]
      exact congrArg₂ (· ++ ·) ((List.append_nil _).trans (hpieces _)) rfl

/-- A run leaves the traces of its pieces. -/
theorem sameTraces_run (ls : List ReplayStep) : ∀ a b : Replay,
    a.engine.addrIndex.staticsSorted = true → SameTraces a.engine b.engine →
      SameTraces (Replay.run noBb orders a ls).engine
        (Replay.run noBb orders b (piecesOnly ls)).engine := by
  induction ls with
  | nil => exact fun _ _ _ h => h
  | cons l ls ih =>
      intro a b hsorted h
      have hsorted' := @staticsSorted_step noBb orders _ hsorted l
      cases l with
      | piece p => exact ih _ _ hsorted' (h.piece p)
      | endBatch =>
          have hend := @SameTraces.endBatch orders _ hsorted
          exact ih _ _ hsorted' ⟨hend.untyped.trans h.untyped, hend.registers.trans h.registers⟩

/-- And one whose batch ends collect nothing leaves the types of its pieces. -/
theorem sameTypes_run (ls : List ReplayStep) : ∀ a b : Replay,
    a.engine.addrIndex.staticsSorted = true → SameTypes a.engine b.engine →
      (∀ front, front ++ [.endBatch] <+: ls → (Replay.run noBb orders a front).stale = []) →
      SameTypes (Replay.run noBb orders a ls).engine
        (Replay.run noBb orders b (piecesOnly ls)).engine := by
  induction ls with
  | nil => exact fun _ _ _ h _ => h
  | cons l ls ih =>
      intro a b hsorted h hstale
      have hsorted' := @staticsSorted_step noBb orders _ hsorted l
      have hstale' : ∀ front, front ++ [.endBatch] <+: ls →
          (Replay.run noBb orders (Replay.step noBb orders a l) front).stale = [] := by
        intro front hfront
        exact hstale (l :: front) (List.cons_prefix_cons.mpr ⟨rfl, hfront⟩)
      cases l with
      | piece p => exact ih _ _ hsorted' (h.piece p) hstale'
      | endBatch =>
          have hnone : a.stale = [] := hstale [] (List.cons_prefix_cons.mpr ⟨rfl, List.nil_prefix⟩)
          have hend := @SameTypes.endBatch orders _ hsorted hnone
          exact ih _ _ hsorted' ⟨⟨hend.untyped.trans h.untyped, hend.registers.trans h.registers⟩,
            hend.uncounted.trans h.uncounted, hend.snapshots.trans h.snapshots⟩ hstale'

end Runs

/-- The loop of `replay_to_checkpoints`; a checkpoint holds what `take_checkpoint` makes
of the world and the heap graph. -/
structure Checkpoints (C : Type*) where
  engine : State
  seq : ℕ := 0
  nextCheckpoint : ℕ
  needFinalize : Bool := false
  checkpoints : List C := []

namespace Checkpoints
variable {C : Type*} (take : ℕ → World → HeapGraph → C) (interval : ℕ) (orders : IndexOrders)

def start (host : Host) (info : Option DwarfInfo) : Checkpoints C where
  engine := { (Replay.start host info).engine with nextFrameId := 0, topo := none }
  nextCheckpoint := interval

def finalize (r : Checkpoints C) : Checkpoints C :=
  if r.needFinalize then
    { r with
      engine := { r.engine with addrIndex := r.engine.addrIndex.finalize orders }
      needFinalize := false }
  else r

def takeCheckpoint (r : Checkpoints C) : Checkpoints C :=
  { r with checkpoints := r.checkpoints ++ [take r.seq r.engine.world r.engine.heapGraph] }

def step (r : Checkpoints C) : Piece → Checkpoints C
  | .snapshot header cont =>
      { r with
        engine := (applyRegSnapshot (header :: cont)).2.elim r.engine fun u =>
          applySnapshotUpdate u r.engine
        seq := r.seq + consumed header cont }
  | .event host ev =>
      let r := { r with
        engine := processEvent host ev r.engine
        seq := r.seq + 1
        needFinalize := r.needFinalize || ev.kind == EVENT_CALL }
      if r.nextCheckpoint ≤ r.seq then
        let r := takeCheckpoint take (finalize orders r)
        { r with nextCheckpoint := r.nextCheckpoint + interval }
      else r

/-- `replay_to_checkpoints` on the batches of a recording. -/
def replay (host : Host) (info : Option DwarfInfo) (batches : List (List Slot)) : Checkpoints C :=
  takeCheckpoint take (finalize orders (batches.foldl (fun r batch =>
    (pieces false 0 batch).foldl (step take interval orders) r) (start interval host info)))

theorem replay_eq (host : Host) (info : Option DwarfInfo) (batches : List (List Slot)) :
    replay take interval orders host info batches = takeCheckpoint take (finalize orders
      ((batches.flatMap (pieces false 0)).foldl (step take interval orders)
        (start interval host info))) := by
  rw [replay, List.flatMap_def, List.foldl_flatten, List.foldl_map]

end Checkpoints

/-- However whole batches cut a recording into pieces, they are the pieces of all of it at
once. The traces, the live blocks and the register values come out as in one batch, and so
do the types and the hazards while no batch end collects a heap object. -/
theorem replay_of_whole_batches {C : Type*} (noBb : Bool) (orders : IndexOrders) (host : Host)
    (info : Option DwarfInfo) (us : List Recorded)
    (hwhole : Whole (us.map Recorded.slots) (cut READ_BATCH (us.flatMap Recorded.slots))) :
    let slots := us.flatMap Recorded.slots
    let batches := cut READ_BATCH slots
    let start := Replay.start host info
    let replayed := (Replay.run noBb orders start (Replay.steps batches)).engine
    let atOnce := (Replay.run noBb orders start (Replay.steps [slots])).engine
    (∀ file, recordedFile (slots.map Prod.snd) = some file → ∃ p, EventPlayer.openFile file = .ok p ∧
      p.readAll READ_BATCH = batches.map (List.map Prod.snd)) ∧
    batches.flatMap (pieces false 0) = us.map Recorded.piece ∧
    Replay.steps batches = maintained READ_BATCH 0 (pieces false 0 slots) ∧
    (replayed.world.nodes = atOnce.world.nodes ∧ replayed.world.edges = atOnce.world.edges ∧
      replayed.world.regs = atOnce.world.regs ∧
      replayed.world.heapAllocs = atOnce.world.heapAllocs ∧
      ∀ tid, (replayed.shadowRegs tid).map ShadowRegisterFile.values =
        (atOnce.shadowRegs tid).map ShadowRegisterFile.values) ∧
    ((∀ front, front ++ [.endBatch] <+: Replay.steps batches →
        (Replay.run noBb orders start front).stale = []) →
      replayed.world.stm = atOnce.world.stm ∧ replayed.world.hazards = atOnce.world.hazards) ∧
    ∀ (take : ℕ → World → HeapGraph → C) (interval : ℕ),
      Checkpoints.replay take interval orders host info batches =
        Checkpoints.replay take interval orders host info [slots] := by
  intro slots batches start replayed atOnce
  have hpieces : batches.flatMap (pieces false 0) = us.map Recorded.piece := pieces_of_whole hwhole
  have hslots : pieces false 0 slots = us.map Recorded.piece := pieces_slots us
  have honce : [slots].flatMap (pieces false 0) = us.map Recorded.piece := by
    rw [List.flatMap_singleton, hslots]
  have hsorted : start.engine.addrIndex.staticsSorted = true := staticsSorted_start host info
  have htraces (bs : List (List Slot)) :=
    @sameTraces_run noBb orders (Replay.steps bs) start start hsorted ⟨rfl, rfl⟩
  have hreplayed := htraces batches
  have hatOnce := htraces [slots]
  rw [piecesOnly_steps, hpieces] at hreplayed
  rw [piecesOnly_steps, honce] at hatOnce
  have huntyped : replayed.untyped = atOnce.untyped := hreplayed.untyped.trans hatOnce.untyped.symm
  have hregisters : replayed.bareRegs = atOnce.bareRegs :=
    hreplayed.registers.trans hatOnce.registers.symm
  have hnodes := congrArg (fun s : State => s.world.nodes) huntyped
  have hedges := congrArg (fun s : State => s.world.edges) huntyped
  have hregs := congrArg (fun s : State => s.world.regs) huntyped
  have hallocs := congrArg (fun s : State => s.world.heapAllocs) huntyped
  refine ⟨fun file hfile => ?_, hpieces, ?_, ⟨hnodes, hedges, hregs, hallocs, fun tid => ?_⟩,
    fun hstale => ?_, fun take interval => ?_⟩
  · obtain ⟨p, hopen, -, hplays⟩ := openFile_recorded hfile
    refine ⟨p, hopen, ?_⟩
    rw [readAll_spec (by decide) hplays, map_cut]
  · rw [hslots]
    exact steps_of_whole (by decide) hwhole
  · have hvalues (o : Option ShadowRegisterFile) : o.map ShadowRegisterFile.values =
        (o.map ShadowRegisterFile.bare).map ShadowRegisterFile.values := by
      rw [Option.map_map]
      rfl
    rw [hvalues, hvalues (atOnce.shadowRegs tid)]
    exact congrArg (Option.map ShadowRegisterFile.values) (congrFun hregisters tid)
  · have htypes := @sameTypes_run noBb orders (Replay.steps batches) start start
      hsorted ⟨⟨rfl, rfl⟩, rfl, rfl⟩ hstale
    rw [piecesOnly_steps, hpieces] at htypes
    -- one batch has its end behind the last piece
    have hlast : atOnce = (Replay.endBatch orders (Replay.run noBb orders start
        ((us.map Recorded.piece).map .piece))).engine := by
      show (Replay.run noBb orders start (Replay.steps [slots])).engine = _
      rw [Replay.steps, List.flatMap_singleton, hslots, Replay.run_append]
      rfl
    have hstm := congrArg (fun s : State => s.world.stm) htypes.uncounted
    rw [hlast, Replay.endBatch_engine]
    exact ⟨hstm, htypes.hazards⟩
  · rw [Checkpoints.replay_eq, Checkpoints.replay_eq, hpieces, honce]

section Ticks

/-- An event that nothing but the counters notices. -/
def fork : Recorded := .event (.plain, plainEvent EVENT_PROCESS_FORK 0 0) (by decide)

/-- A snapshot; thread 3 stores 5 and thread 2 loads it into r12. -/
def storeAndLoad : List Recorded :=
  [.snapshot (.plain, plainEvent EVENT_REG_SNAPSHOT 0 0)
      (fun _ => (.plain, plainEvent EVENT_REG_SNAPSHOT 1 2)) (by decide) (by decide),
    .event (.plain, numbered 3 0 (plainEvent EVENT_WRITE 0x1000 5)) (by decide),
    .event (.plain, { numbered 2 0 (plainEvent EVENT_RELOAD 0x1000 5) with
      kindFlags := makeKf EVENT_RELOAD 12 0 }) (by decide)]

/-- The forks fill the batch of them. -/
def fullBatch : List Recorded := storeAndLoad ++ List.replicate 4087 fork

/-- Thread 1 stores 7. -/
def store : Recorded := .event (.plain, numbered 1 0 (plainEvent EVENT_WRITE 0x1000 7)) (by decide)

/-- The replay `n` forks later. -/
def forked (n : ℕ) (r : Replay) : Replay :=
  { r with
    engine := { r.engine with
      world := { r.engine.world with
        insnCounter := r.engine.world.insnCounter + n
        totalEventCount := r.engine.world.totalEventCount + n } }
    total := r.total + n }

theorem run_forks (n : ℕ) (r : Replay) : Replay.run false Host.plain.orders r
    (List.replicate n (.piece fork.piece)) = forked n r := by
  induction n generalizing r with
  | zero => rfl
  | succ n ih =>
      have hcall : ((plainEvent EVENT_PROCESS_FORK 0 0).kind == EVENT_CALL) = false := by decide
      have hneed : (r.needFinalize || (plainEvent EVENT_PROCESS_FORK 0 0).kind == EVENT_CALL) =
          r.needFinalize := by
        rw [hcall, Bool.or_false]
      have hstep : Replay.step false Host.plain.orders r (.piece fork.piece) = forked 1 r := by
        rw [fork, Recorded.piece, Replay.step_event, Bool.false_and, if_neg Bool.false_ne_true, hneed]
        rfl
      rw [List.replicate_succ, Replay.run, List.foldl_cons, hstep]
      refine (ih _).trans ?_
      simp only [forked, Nat.add_assoc, Nat.add_comm 1 n]

theorem cut_fullBatch : cut READ_BATCH ((fullBatch ++ [store]).flatMap Recorded.slots) =
    [fullBatch.flatMap Recorded.slots, store.slots] := by
  have hforks (n : ℕ) : ((List.replicate n fork).flatMap Recorded.slots).length = n := by
    induction n with
    | zero => rfl
    | succ n ih =>
        rw [List.replicate_succ, List.flatMap_cons, List.length_append, ih, Nat.add_comm]
        rfl
  have hfull : (fullBatch.flatMap Recorded.slots).length = READ_BATCH := by
    rw [fullBatch, List.flatMap_append, List.length_append, hforks]
    rfl
  rw [List.flatMap_append, cut_append (by decide) hfull, List.flatMap_singleton,
    cut_of_length_le store.slots_ne_nil (by decide)]

theorem whole_fullBatch : Whole ((fullBatch ++ [store]).map Recorded.slots)
    (cut READ_BATCH ((fullBatch ++ [store]).flatMap Recorded.slots)) := by
  refine ⟨[fullBatch.map Recorded.slots, [store.slots]], ?_, ?_⟩
  · rw [List.map_append]
    rfl
  · rw [cut_fullBatch]
    rfl

theorem full_batch_replayed :
    (cut READ_BATCH ((fullBatch ++ [store]).flatMap Recorded.slots)).flatMap (pieces false 0) =
      (fullBatch ++ [store]).map Recorded.piece :=
  (replay_of_whole_batches (C := ℕ) false Host.plain.orders .plain none (fullBatch ++ [store])
    whole_fullBatch).2.1

/-- A last recorded unit in the batch of the others, or in one of its own. -/
theorem run_last (us : List Recorded) (u : Recorded) (r : Replay) :
    let front := Replay.run false Host.plain.orders r ((us.map Recorded.piece).map .piece)
    Replay.run false Host.plain.orders r (Replay.steps [(us ++ [u]).flatMap Recorded.slots]) =
        Replay.endBatch Host.plain.orders
          (Replay.step false Host.plain.orders front (.piece u.piece)) ∧
      Replay.run false Host.plain.orders r (Replay.steps [us.flatMap Recorded.slots, u.slots]) =
        Replay.endBatch Host.plain.orders (Replay.step false Host.plain.orders
          (Replay.endBatch Host.plain.orders front) (.piece u.piece)) := by
  intro front
  have hlast : pieces false 0 u.slots = [u.piece] := by
    rw [← List.flatMap_singleton Recorded.slots u, pieces_slots]
    rfl
  constructor
  · rw [Replay.steps, List.flatMap_singleton, pieces_slots, List.map_append, List.map_append,
      List.append_assoc, Replay.run, List.foldl_append]
    rfl
  · rw [Replay.steps, List.flatMap_cons, List.flatMap_singleton, pieces_slots, hlast, Replay.run,
      List.foldl_append, List.foldl_append, List.foldl_append]
    rfl

/-- The end of a batch forgets that thread 3 wrote to the line. -/
theorem tick_between_stores : ¬ ∀ us : List Recorded,
    (Replay.run false Host.plain.orders (Replay.start .plain none)
      (Replay.steps (cut READ_BATCH (us.flatMap Recorded.slots)))).engine.shadowRegs =
    (Replay.run false Host.plain.orders (Replay.start .plain none)
      (Replay.steps [us.flatMap Recorded.slots])).engine.shadowRegs := by
  intro hall
  let start := Replay.start .plain none
  let loaded := Replay.run false Host.plain.orders start ((storeAndLoad.map Recorded.piece).map .piece)
  obtain ⟨us, hcut, hfront⟩ : ∃ us : List Recorded,
      cut READ_BATCH ((us ++ [store]).flatMap Recorded.slots) =
        [us.flatMap Recorded.slots, store.slots] ∧
      Replay.run false Host.plain.orders start ((us.map Recorded.piece).map .piece) =
        forked 4087 loaded := by
    refine ⟨fullBatch, cut_fullBatch, ?_⟩
    rw [fullBatch, List.map_append, List.map_append, List.map_replicate, List.map_replicate]
    exact List.foldl_append.trans (run_forks 4087 loaded)
  obtain ⟨honce, hbatches⟩ := run_last us store start
  rw [hfront] at honce hbatches
  have hsame := hall (us ++ [store])
  rw [hcut, honce, hbatches] at hsame
  have hconfidence := congrArg (fun regs : UInt16 → Option ShadowRegisterFile =>
    (regs 2).map fun f => (f.regs 12).confidence) hsame
  revert hconfidence
  decide +kernel

end Ticks

end Rtmap.Engine
