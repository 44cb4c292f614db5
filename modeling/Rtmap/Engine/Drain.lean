import Rtmap.Engine.Steps

/-!
# The drain loop

`run_headless`: the root's and the children's buffers of a pass, the register
snapshots taken out of them, the sequence numbers, the recording and the final
sweep at exit. What the rings hold is input; printing is left out.
-/
namespace Rtmap.Engine
open Rtmap.Ring

/-- An event with what the surroundings answer while it is handled. -/
abbrev Slot := Host × Event

/-- The counter that numbers a kind: WRITE and BB_ENTRY have the inline one. -/
def seqDomain (kind : UInt8) : UInt8 := if kind = 0 ∨ kind = 11 then 0 else 1

/-- A reported gap. -/
structure Gap where
  threadId : UInt16
  domain : UInt8
  expected : UInt32
  actual : UInt32
deriving DecidableEq, Repr

/-- How many numbers the gap skips. -/
def Gap.dropped (g : Gap) : UInt32 := g.actual - g.expected

/-- `expected_seq` and the gaps reported; `seq_gaps` is their number. -/
structure SeqTracker where
  expectedSeq : UInt16 → UInt8 → Option UInt32 := fun _ _ => none
  gaps : List Gap := []

namespace SeqTracker

def seqGaps (t : SeqTracker) : ℕ := t.gaps.length

/-- The gap a number makes: none when it is the expected one or the first. -/
def gapAt (t : SeqTracker) (tid : UInt16) (dom : UInt8) (s32 : UInt32) : Option Gap :=
  let exp := (t.expectedSeq tid dom).getD s32
  if s32 ≠ exp then some ⟨tid, dom, exp, s32⟩ else none

/-- Continuation slots carry no number. -/
def track (ev : Event) (t : SeqTracker) : SeqTracker :=
  if ev.isContinuation then t
  else
    let dom := seqDomain ev.kind
    { expectedSeq := Function.update t.expectedSeq ev.threadId
        (Function.update (t.expectedSeq ev.threadId) dom (some (ev.seq32 + 1)))
      gaps := t.gaps ++ (t.gapAt ev.threadId dom ev.seq32).toList }

end SeqTracker

/-- What the loop takes out of a buffer at once: one event, or a snapshot header
with up to six slots behind it. -/
inductive Piece where
  | event (host : Host) (ev : Event)
  | snapshot (header : Event) (cont : List Event)

/-- The slots `apply_reg_snapshot` consumes, one at least. -/
def consumed (header : Event) (cont : List Event) : ℕ := max (applyRegSnapshot (header :: cont)).1 1

/-- The pieces of a buffer; `skip` slots are still to be passed over. -/
def pieces (noBb : Bool) : ℕ → List Slot → List Piece
  | _, [] => []
  | skip + 1, _ :: rest => pieces noBb skip rest
  | 0, x :: rest =>
      if noBb && x.2.kind == EVENT_BB_ENTRY then pieces noBb 0 rest
      else if x.2.kind = EVENT_REG_SNAPSHOT then
        let cont := (rest.take 6).map Prod.snd
        .snapshot x.2 cont :: pieces noBb (consumed x.2 cont - 1) rest
      else .event x.1 x.2 :: pieces noBb 0 rest

/-- An attached child: the pid its control page names. -/
structure Child where
  pid : Option UInt32
  emptyTicks : ℕ := 0
deriving DecidableEq, Repr

/-- `ChildProcessTracker`. -/
structure ChildTracker where
  pendingPids : List UInt32 := []
  children : List Child := []
  rootPid : Option UInt32 := none
  sharedRegionsStale : Bool := false
  /-- the shared region an address lies in, as last read from the process maps -/
  sharedRegion : UInt64 → Option String := fun _ => none

/-- `register_fork`. -/
def ChildTracker.registerFork (t : ChildTracker) (childPid : UInt32) : ChildTracker :=
  if t.pendingPids.contains childPid || t.children.any (fun c => c.pid == some childPid) ||
      t.rootPid == some childPid then t
  else { t with pendingPids := t.pendingPids ++ [childPid], sharedRegionsStale := true }

structure Session where
  engine : State := {}
  total : ℕ := 0
  seq : SeqTracker := {}
  recorder : Option (List Event) := none
  children : ChildTracker := {}
  needFinalize : Bool := false

/-- The slots of a recorded snapshot: the header and the registers of the world. -/
def snapshotRecord (header : Event) (regs : RegIdx → UInt64) : List Event :=
  header :: List.ofFn fun i : Fin 6 => {
    addr := regs ⟨i * 3, by omega⟩
    size := (regs ⟨i * 3 + 1, by omega⟩).toUInt32
    threadId := header.threadId
    seq := header.seq
    value := regs ⟨i * 3 + 2, by omega⟩
    kindFlags := header.kindFlags
    ripLo := 0 }

namespace Session

def emit (l : Line) (s : Session) : Session := { s with engine := s.engine.emit l }

def count (n : ℕ) (s : Session) : Session :=
  { s with total := s.total + n, engine := tickInsn s.engine }

def record (evs : List Event) (s : Session) : Session :=
  { s with recorder := s.recorder.map fun r => r ++ evs }

/-- Track the number; a gap goes to the topology stream. -/
def track (ev : Event) (s : Session) : Session :=
  let gap :=
    if ev.isContinuation then none
    else s.seq.gapAt ev.threadId (seqDomain ev.kind) ev.seq32
  let s := { s with seq := s.seq.track ev }
  match gap with
  | some g => s.emit (.seqGap s.total g.threadId g.expected g.actual)
  | none => s

def applySnapshot (header : Event) (cont : List Event) (s : Session) : Session :=
  match (applyRegSnapshot (header :: cont)).2 with
  | some u => { s with engine := applySnapshotUpdate u s.engine }
  | none => s

def recordSnapshot (header : Event) (s : Session) : Session :=
  s.record (snapshotRecord header s.engine.world.regs)

/-- A fork event registers the child. -/
def fork (ev : Event) (s : Session) : Session :=
  if ev.kind = EVENT_PROCESS_FORK then
    { s with children := s.children.registerFork ev.addr.toUInt32 }.emit
      (.processFork s.total ev.addr.toUInt32 ev.value.toUInt32)
  else s

/-- The line of a write into a region shared between processes. -/
def crossWrite (ev : Event) (s : Session) : Session :=
  if ev.kind = EVENT_WRITE ∧ s.children.children.length > 0 then
    match s.children.sharedRegion ev.addr with
    | some region => s.emit (.crossProcessWrite s.total ev.threadId ev.addr ev.size region)
    | none => s
  else s

/-- `process_event` and what the loop does after it. -/
def handle (host : Host) (ev : Event) (s : Session) : Session :=
  let s := { s with engine := processEvent host ev s.engine }
  let s := record [ev] (crossWrite ev (fork ev s))
  { s with needFinalize := s.needFinalize || ev.kind == EVENT_CALL }

/-- A piece of the root's buffer. -/
def rootPiece (s : Session) : Piece → Session
  | .event host ev => handle host ev (track ev (count 1 s))
  | .snapshot header cont =>
      count (consumed header cont) (track header (recordSnapshot header (applySnapshot header cont s)))

/-- A piece of the children's buffer: its numbers are not tracked. -/
def childPiece (s : Session) : Piece → Session
  | .event host ev => handle host ev (count 1 s)
  | .snapshot header cont =>
      count (consumed header cont) (recordSnapshot header (applySnapshot header cont s))

def drainRoot (noBb : Bool) (s : Session) (buf : List Slot) : Session :=
  (pieces noBb 0 buf).foldl rootPiece s

def drainChildren (noBb : Bool) (s : Session) (buf : List Slot) : Session :=
  (pieces noBb 0 buf).foldl childPiece s

/-- One pass: the root's buffer, then the children's. -/
structure Pass where
  root : List Slot
  children : List Slot := []

def drainPass (noBb : Bool) (s : Session) (p : Pass) : Session :=
  drainChildren noBb (drainRoot noBb s p.root) p.children

/-- The passes of a tick; the index is finalized after calls. -/
def tick (noBb : Bool) (orders : IndexOrders) (passes : List Pass) (s : Session) : Session :=
  let s := passes.foldl (drainPass noBb) { s with needFinalize := false }
  if s.needFinalize then
    { s with engine := { s.engine with addrIndex := s.engine.addrIndex.finalize orders } }
  else s

/-- An event of the final sweep. -/
def sweepEvent (noBb : Bool) (s : Session) (x : Slot) : Session :=
  if noBb && x.2.kind == EVENT_BB_ENTRY then s
  else
    let s := count 1 s
    record [x.2] { s with engine := processEvent x.1 x.2 s.engine }

/-- The final sweep of the root's rings. -/
def finalSweep (noBb : Bool) (s : Session) (buf : List Slot) : Session :=
  buf.foldl (sweepEvent noBb) s

end Session

end Rtmap.Engine
