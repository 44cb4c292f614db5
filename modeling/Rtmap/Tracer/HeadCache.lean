import Rtmap.Tracer.Slots

/-!
# The head cache

Inline code advances the cached head, pushes advance the head of the ring, and the
producers copy one to the other. `head_cache_coherent` is about any order of completed
emissions: no event is overwritten or skipped, whoever emitted it.
-/
namespace Rtmap.Tracer
open Rtmap.Ring

def MAP_SHARED : UInt32 := 1

namespace Thread

/-- The frame of an allocator wrapper: it has no gates but the ring. -/
def wrapped (pushes : Thread → List Push) (env : Env) (t : Thread) : Thread :=
  if !t.mapped then t
  else ((t.flushHeadCache env).pushAll env 0 (pushes t)).syncHeadCache env

def allocPushes (ret size : UInt64) (caller : UInt32) (t : Thread) : List Push :=
  [⟨fun seq => .pushAlloc ret size.toUInt32 size EVENT_ALLOC t.tid seq caller, false⟩]

def freePushes (ptr : UInt64) (t : Thread) : List Push := [pushEx ptr 0 0 EVENT_FREE t.tid]

/-- `ret` is 0 as well where an unwind bypassed the return. -/
def wrapMallocPost (ret size : UInt64) (caller : UInt32) (env : Env) (t : Thread) : Thread :=
  if ret = 0 then t else t.wrapped (allocPushes ret size caller) env

def wrapReallocPre (oldPtr : UInt64) (env : Env) (t : Thread) : Thread :=
  if oldPtr ≠ 0 then t.wrapped (freePushes oldPtr) env else t

def wrapReallocPost (ret size : UInt64) (caller : UInt32) (env : Env) (t : Thread) : Thread :=
  if ret = 0 then t else t.wrapped (allocPushes ret size caller) env

def wrapFreePre (ptr : UInt64) (env : Env) (t : Thread) : Thread :=
  if ptr = 0 then t else t.wrapped (freePushes ptr) env

def sharedMapPushes (addr : UInt64) (size : UInt32) (length : UInt64) (t : Thread) : List Push :=
  [pushEx addr size length EVENT_SHARED_MAP t.tid]

def eventPreSyscall (t : Thread) : Thread :=
  if !t.mapped then t
  else if t.cached ≠ t.head then { t with head := t.cached } else t

end Thread

/-- A call of mmap or munmap, with its result. -/
inductive Syscall where
  | mmap (length : UInt64) (flags fd : UInt32) (ret : UInt64)
  | munmap (addr length ret : UInt64)

/-- The pushes behind a call that succeeded, for shared mappings only. -/
def Syscall.pushes : Syscall → Thread → List Thread.Push
  | .mmap length flags fd ret, t =>
      if ret.toInt64 < 0 ∧ -4096 ≤ ret.toInt64 then []
      else if flags &&& MAP_SHARED = 0 then []
      else Thread.sharedMapPushes ret fd length t
  | .munmap addr length ret, t =>
      if ret ≠ 0 then [] else Thread.sharedMapPushes addr 0xFFFFFFFF length t

/-- The post hook pushes at the ring's head without a flush. -/
def Thread.eventPostSyscall (c : Syscall) (env : Env) (t : Thread) : Thread :=
  if env.phase = .boot then t
  else if c.pushes t = [] then t
  else if !t.mapped then t
  else (t.pushAll env 0 (c.pushes t)).syncHeadCache env

inductive CleanCall where
  | atCall (callee frameBase : UInt64)
  | atReturn (retaddr : UInt64)
  | atTailCall (target frameBase : UInt64)
  | atReload (src : UInt64) (size : UInt32) (reg : UInt8)
  | flushReadBuf
  | wrapMallocPost (ret size : UInt64) (caller : UInt32)
  | wrapReallocPre (oldPtr : UInt64)
  | wrapReallocPost (ret size : UInt64) (caller : UInt32)
  | wrapFreePre (ptr : UInt64)

namespace CleanCall

def run : CleanCall → Env → Thread → Thread
  | .atCall callee frameBase, env, t => t.atCall callee frameBase env
  | .atReturn retaddr, env, t => t.atReturn retaddr env
  | .atTailCall target frameBase, env, t => t.atTailCall target frameBase env
  | .atReload src size reg, env, t => t.atReload src size reg env
  | .flushReadBuf, env, t => t.flushReadBuf env
  | .wrapMallocPost ret size caller, env, t => t.wrapMallocPost ret size caller env
  | .wrapReallocPre oldPtr, env, t => t.wrapReallocPre oldPtr env
  | .wrapReallocPost ret size caller, env, t => t.wrapReallocPost ret size caller env
  | .wrapFreePre ptr, env, t => t.wrapFreePre ptr env

/-- There is something to emit: a buffered read, a block that was returned or given up. -/
def Emits : CleanCall → Thread → Prop
  | .flushReadBuf, t => t.rdbuf ≠ []
  | .wrapMallocPost ret .., _ | .wrapReallocPost ret .., _ => ret ≠ 0
  | .wrapReallocPre ptr, _ | .wrapFreePre ptr, _ => ptr ≠ 0
  | .atCall .., _ | .atReturn _, _ | .atTailCall .., _ | .atReload .., _ => True

end CleanCall

/-- The events of pushes that no gate holds back. -/
def ungated (pushes : List Thread.Push) (env : Env) (t : Thread) : List Event :=
  if !t.mapped then []
  else (Thread.admitted env t.capacity.size t.cached t.tlsSeq 0 pushes).flatMap Op.slots

/-- The events that the call emits: its pushes that the ring has room for. -/
def CleanCall.events : CleanCall → Env → Thread → List Event
  | .atCall callee frameBase, env, t => pushed (Thread.callPushes callee frameBase env) env t
  | .atReturn retaddr, env, t => pushed (Thread.returnPushes retaddr) env t
  | .atTailCall target frameBase, env, t => pushed (Thread.tailCallPushes target frameBase) env t
  | .atReload src size reg, env, t => pushed (Thread.reloadPushes src size reg) env t
  | .flushReadBuf, env, t => pushed Thread.readPushes env t
  | .wrapMallocPost ret size caller, env, t | .wrapReallocPost ret size caller, env, t =>
      if ret = 0 then [] else ungated (Thread.allocPushes ret size caller t) env t
  | .wrapReallocPre ptr, env, t | .wrapFreePre ptr, env, t =>
      if ptr = 0 then [] else ungated (Thread.freePushes ptr t) env t

namespace Thread

/-- A store with nothing but its instruction between the halves. -/
def emitWrite (w : PreWrite) (effect : Memory → Memory) (env : Env) (t : Thread) : Thread :=
  { t.emitPreWrite w env with mem := effect t.mem }.emitPostWrite w.post

/-- The events of a store: the header with the captured value, and the continuations. -/
def stored (w : PreWrite) (after : Memory) (t : Thread) : List Event :=
  { (⟨w, t.tid, t.seq, after⟩ : Flight).header with
    value := w.imm.getD (if w.size ≤ 8 ∨ w.wide = true then readMem after w.ea 8 else 0) } ::
  (if w.imm.isSome || !w.wide then []
   else (List.range (totalSlots w.size - 1)).map
    (continuation w.ea w.size t.tid (chunk after w.ea w.size)))

/-- A store without room, ring or guard is dropped. -/
def writeEvents (w : PreWrite) (effect : Memory → Memory) (env : Env) (t : Thread) : List Event :=
  if (t.emitPreWrite w env).scratch1 = none then [] else t.stored w (effect t.mem)

def bbEvents (pc : UInt64) (rip : UInt32) (env : Env) (t : Thread) : List Event :=
  if env.phase ≠ .trace ∨ t.mapped = false ∨ t.bp ≠ 0 then []
  else [(Op.bbEntry pc t.tid t.seq rip).slot 0]

end Thread

/-- What the thread can do next. `read` fills the read buffer, `app` is the program's own
code, and the tripwire ends the BOOT phase. -/
inductive Producer where
  | write (w : PreWrite) (effect : Memory → Memory) (env : Env)
  | bbEntry (pc : UInt64) (rip : UInt32) (env : Env)
  | blockEnd (env : Env)
  | call (c : CleanCall) (env : Env)
  | syscall (c : Syscall) (env : Env)
  | read (addr : UInt64) (size : UInt32) (env : Env)
  | app (effect : Memory → Memory)
  | tripwire

/-- A thread, the phase of the program, and the events emitted so far. -/
structure Producing where
  phase : Phase
  thread : Thread
  log : List Event

namespace Producing

/-- A thread as `event_thread_init` leaves it. -/
def init (phase : Phase) (mapped : Bool) (tid : UInt16) (mem : Memory) : Producing :=
  ⟨phase, .start THREAD_RING_CAPACITY mapped tid mem, []⟩

def next (s : Producing) (thread : Thread) (events : List Event) : Producing :=
  { s with thread := thread, log := s.log ++ events }

def step (s : Producing) : Producer → Producing
  | .write w effect env =>
      let env := { env with phase := s.phase }
      s.next (s.thread.emitWrite w effect env) (s.thread.writeEvents w effect env)
  | .bbEntry pc rip env =>
      let env := { env with phase := s.phase }
      s.next (s.thread.emitBbEntry pc rip env) (s.thread.bbEvents pc rip env)
  | .blockEnd env => s.next (s.thread.flushHeadCache env) []
  | .call c env =>
      let env := { env with phase := s.phase }
      s.next (c.run env s.thread) (c.events env s.thread)
  | .syscall c env =>
      let env := { env with phase := s.phase }
      s.next (s.thread.eventPreSyscall.eventPostSyscall c env)
        (if s.phase = .boot then [] else ungated (c.pushes s.thread) env s.thread)
  | .read addr size env =>
      s.next (s.thread.atMemReadBuf addr size { env with phase := s.phase }) []
  | .app effect => s.next { s.thread with mem := effect s.thread.mem } []
  | .tripwire => { s with phase := .trace }

def run (producers : List Producer) (s : Producing) : Producing := producers.foldl step s

/-- The published head is not beyond the cached one, each index below this one was
taken by one emitted event, in order, and holds it, with fewer than capacity events
unconsumed from `tail` on. -/
structure Coherent (s : Producing) : Prop where
  published : s.thread.head ≤ s.thread.cached
  accounted : s.thread.cached = s.log.length
  slot : ∀ tail p e, s.thread.cached < tail + s.thread.capacity.size → tail ≤ p →
    s.log[p]? = some e → s.thread.slots (s.thread.capacity.index p) = e

end Producing

namespace Producing

/-- Between two emissions: the log accounts for the slots, no guard is set, and as long
as no inline code can have emitted anything, everything is published. -/
structure Steady (s : Producing) : Prop where
  logged : Logged s.thread.cached s.thread (s.log.map .event)
  nesting : s.thread.nesting = false
  guard : s.thread.guard = false
  synced : s.phase = .boot ∨ s.thread.mapped = false → s.thread.head = s.thread.cached

section Advance
variable {s : Producing} {t : Thread} {events : List Event}

/-- The thread stores the emitted events from the cached head on. -/
structure Advances (t t' : Thread) (events : List Event) : Prop where
  capacity : t'.capacity = t.capacity
  mapped : t'.mapped = t.mapped
  guard : t'.guard = t.guard
  slots : t'.slots = storeRun t.capacity t.slots t.cached events
  cached : t'.cached = t.cached + events.length
  head_le : t'.head ≤ t'.cached

theorem Steady.next (h : s.Steady) (ha : Advances s.thread t events) (hnesting : t.nesting = false)
    (hsynced : s.phase = .boot ∨ s.thread.mapped = false → t.head = t.cached) :
    (s.next t events).Steady where
  logged := by
    have hlogged : Logged t.cached t (s.log.map .event ++ events.map .event) :=
      h.logged.append (List.length_map _) (fun _ _ _ => fits_events) (Nat.le_add_right ..)
        ha.capacity ha.slots ha.cached ha.head_le
    rwa [← List.map_append] at hlogged
  nesting := hnesting
  guard := ha.guard.trans h.guard
  synced := fun hs => hsynced (hs.imp id fun hm => ha.mapped.symm.trans hm)

/-- Nothing is emitted, and the ring and its heads stay as they are. -/
theorem Steady.keep (h : s.Steady) (hcapacity : t.capacity = s.thread.capacity)
    (hmapped : t.mapped = s.thread.mapped) (hguard : t.guard = s.thread.guard)
    (hslots : t.slots = s.thread.slots) (hcached : t.cached = s.thread.cached)
    (hhead : t.head = s.thread.head) (hnesting : t.nesting = false) : (s.next t []).Steady :=
  h.next ⟨hcapacity, hmapped, hguard, hslots, hcached, by
    rw [hhead, hcached]
    exact h.logged.head_le⟩ hnesting fun hs => by
      rw [hhead, hcached]
      exact h.synced hs

end Advance

section Calls
variable {s : Producing} {env : Env}

/-- A flush, the pushes and a sync leave nothing unpublished. -/
theorem Steady.pushes (h : s.Steady) (hmapped : s.thread.mapped = true)
    (pushes : Thread → List Thread.Push) (env : Env) :
    (s.next (((s.thread.flushHeadCache env).pushAll env 0 (pushes s.thread)).syncHeadCache env)
      (ungated (pushes s.thread) env s.thread)).Steady ∧
    (((s.thread.flushHeadCache env).pushAll env 0 (pushes s.thread)).syncHeadCache env).head =
      (((s.thread.flushHeadCache env).pushAll env 0 (pushes s.thread)).syncHeadCache env).cached := by
  have hevents : ungated (pushes s.thread) env s.thread =
      (Thread.admitted env s.thread.capacity.size s.thread.cached s.thread.tlsSeq 0
        (pushes s.thread)).flatMap Op.slots := by
    simp only [ungated, hmapped, Bool.not_true, Bool.false_eq_true, if_false]
  obtain ⟨seq, heq⟩ := push_eq pushes env hmapped
  rw [heq, hevents]
  exact ⟨h.next ⟨rfl, rfl, rfl, rfl, rfl, le_rfl⟩ h.nesting fun _ => rfl, rfl⟩

theorem Steady.wrapped (h : s.Steady) (pushes : Thread → List Thread.Push) (env : Env) :
    (s.next (s.thread.wrapped pushes env) (ungated (pushes s.thread) env s.thread)).Steady ∧
      (s.thread.wrapped pushes env).head = (s.thread.wrapped pushes env).cached := by
  cases hmapped : s.thread.mapped with
  | false =>
      simp only [Thread.wrapped, ungated, hmapped, Bool.not_false, if_true]
      exact ⟨h.keep rfl rfl rfl rfl rfl rfl h.nesting, h.synced (.inr hmapped)⟩
  | true =>
      simp only [Thread.wrapped, hmapped, Bool.not_true, Bool.false_eq_true, if_false]
      exact h.pushes hmapped pushes env

theorem Steady.cleanCall (h : s.Steady) (hphase : env.phase = s.phase)
    (pushes : Thread → List Thread.Push) :
    (s.next (s.thread.cleanCall pushes env) (pushed pushes env s.thread)).Steady ∧
      (s.thread.cleanCall pushes env).head = (s.thread.cleanCall pushes env).cached := by
  by_cases hboot : env.phase = .boot
  · simp only [Thread.cleanCall, pushed, hboot, if_true, true_or]
    exact ⟨h.keep rfl rfl rfl rfl rfl rfl h.nesting, h.synced (.inl (hphase.symm.trans hboot))⟩
  · have hwrapped := h.wrapped pushes env
    simp only [Thread.cleanCall, pushed, hboot, h.guard, if_false, Bool.false_eq_true, false_or]
    exact hwrapped

theorem Steady.flushReadBuf (h : s.Steady) (hphase : env.phase = s.phase) :
    (s.next (s.thread.flushReadBuf env) (pushed Thread.readPushes env s.thread)).Steady ∧
      (s.thread.rdbuf ≠ [] →
        (s.thread.flushReadBuf env).head = (s.thread.flushReadBuf env).cached) := by
  by_cases hboot : env.phase = .boot
  · simp only [Thread.flushReadBuf, pushed, hboot, if_true, true_or]
    exact ⟨h.keep rfl rfl rfl rfl rfl rfl h.nesting,
      fun _ => h.synced (.inl (hphase.symm.trans hboot))⟩
  · by_cases hempty : s.thread.rdbuf = []
    · have hpushed : pushed Thread.readPushes env s.thread = [] := by
        simp [pushed, Thread.readPushes, hempty, Thread.admitted]
      simp only [Thread.flushReadBuf, hboot, h.guard, hempty, if_false, if_true,
        Bool.false_eq_true, hpushed]
      exact ⟨h.keep rfl rfl rfl rfl rfl rfl h.nesting, fun hne => absurd rfl hne⟩
    · cases hmapped : s.thread.mapped with
      | false =>
          simp only [Thread.flushReadBuf, pushed, hboot, h.guard, hempty, hmapped, if_false,
            Bool.false_eq_true, false_or, Bool.not_false, if_true]
          exact ⟨h.keep rfl hmapped.symm h.guard.symm rfl rfl rfl h.nesting,
            fun _ => h.synced (.inr hmapped)⟩
      | true =>
          obtain ⟨hsteady, hhead⟩ := h.pushes hmapped Thread.readPushes env
          have hevents : pushed Thread.readPushes env s.thread =
              ungated (Thread.readPushes s.thread) env s.thread := by
            simp only [pushed, ungated, hboot, h.guard, Bool.false_eq_true, false_or]
          simp only [Thread.flushReadBuf, hboot, h.guard, hempty, hmapped, if_false,
            Bool.false_eq_true, Bool.not_true, hevents]
          exact ⟨⟨hsteady.logged.congr rfl rfl rfl hsteady.logged.head_le, hsteady.nesting,
            hsteady.guard, hsteady.synced⟩, fun _ => hhead⟩

/-- Each clean call keeps order, and publishes everything unless it has nothing to emit. -/
theorem Steady.call (h : s.Steady) (hphase : env.phase = s.phase) (c : CleanCall) :
    (s.next (c.run env s.thread) (c.events env s.thread)).Steady ∧
      (c.Emits s.thread → (c.run env s.thread).head = (c.run env s.thread).cached) := by
  have hwrapper {pushes : Thread → List Thread.Push} {p : Prop} [Decidable p] :
      (s.next (if p then s.thread else s.thread.wrapped pushes env)
        (if p then [] else ungated (pushes s.thread) env s.thread)).Steady ∧
      (¬ p → (if p then s.thread else s.thread.wrapped pushes env).head =
        (if p then s.thread else s.thread.wrapped pushes env).cached) := by
    split
    · exact ⟨h.keep rfl rfl rfl rfl rfl rfl h.nesting, fun hn => absurd ‹p› hn⟩
    · obtain ⟨hsteady, hhead⟩ := h.wrapped pushes env
      exact ⟨hsteady, fun _ => hhead⟩
  have hgated (pushes : Thread → List Thread.Push) :=
    (h.cleanCall hphase pushes).imp_right fun hhead (_ : True) => hhead
  cases c with
  | atCall callee frameBase => exact hgated _
  | atReturn retaddr => exact hgated _
  | atTailCall target frameBase => exact hgated _
  | atReload src size reg => exact hgated _
  | flushReadBuf => exact h.flushReadBuf hphase
  | wrapMallocPost ret size caller => exact hwrapper
  | wrapReallocPost ret size caller => exact hwrapper
  | wrapFreePre ptr => exact hwrapper
  | wrapReallocPre ptr =>
      have hrun : (CleanCall.wrapReallocPre ptr).run env s.thread =
          (CleanCall.wrapFreePre ptr).run env s.thread := by
        simp only [CleanCall.run, Thread.wrapReallocPre, Thread.wrapFreePre, ne_eq, ite_not]
      rw [hrun]
      exact hwrapper

end Calls

section Inline
variable {s : Producing} {env : Env}

theorem head_bumpHead (t : Thread) : t.bumpHead.head = t.head ∨ t.bumpHead.head = t.cached + 1 := by
  unfold Thread.bumpHead
  split
  · exact .inr rfl
  · exact .inl rfl

theorem open_of_filled {w : PreWrite} {t : Thread} (h : (t.emitPreWrite w env).scratch1 ≠ none) :
    env.phase = .trace ∧ t.mapped = true := by
  unfold Thread.emitPreWrite at h
  split at h
  · exact absurd rfl h
  · rename_i hphase
    split at h
    · exact absurd rfl h
    · split at h
      · exact absurd rfl h
      · rename_i hmapped
        exact ⟨not_not.mp hphase, by simpa using hmapped⟩

/-- The state between the halves of a store that fills a slot. -/
def armed (w : PreWrite) (after : Memory) (t : Thread) : Thread :=
  { t with
    scratch0 := w.ea
    slots := Function.update t.slots (t.capacity.index t.cached)
      (t.preWritten w (t.slots (t.capacity.index t.cached)))
    scratch1 := some (t.capacity.index t.cached)
    nesting := true
    mem := after }

/-- What the second half stores, from the slot that the first one filled. -/
theorem storeRun_armed (w : PreWrite) (after : Memory) (t : Thread) (e : Event) (es : List Event) :
    storeRun t.capacity (armed w after t).slots t.cached (e :: es) =
      storeRun t.capacity t.slots t.cached (e :: es) := by
  simp only [storeRun, armed, Function.update_idem]

section PostWrite
variable {w : PreWrite} {after : Memory} {t : Thread}

/-- The header is in the slot behind the first half. -/
theorem slot_armed : (armed w after t).slots (t.capacity.index t.cached) =
    { (⟨w, t.tid, t.seq, after⟩ : Flight).header with
      value := w.imm.getD (t.slots (t.capacity.index t.cached)).value } :=
  Function.update_self ..

/-- An immediate, a word or a wide store. -/
theorem advances_inline (h : t.head ≤ t.cached) (hsize : w.imm = none → w.size ≤ 8 ∨ w.wide = true) :
    Advances t ((armed w after t).emitPostWrite w.post) (t.stored w after) := by
  let f : Flight := ⟨w, t.tid, t.seq, after⟩
  obtain ⟨head, truncated, hhead, heq⟩ :=
    emitPostWrite_eq (t := armed w after t) (f := f) rfl rfl slot_armed hsize
  have hevents : postEvents f (armed w after t)
      (w.imm.getD (t.slots (t.capacity.index t.cached)).value) = t.stored w after := by
    cases himm : w.imm with
    | some v => simp [postEvents, Thread.stored, himm, f, Flight.header]
    | none => simp [postEvents, Thread.stored, himm, f, Flight.header, hsize himm, armed]
  rw [hevents] at heq hhead
  refine ⟨by rw [heq]; rfl, by rw [heq]; rfl, by rw [heq]; rfl, ?_, by rw [heq]; rfl, ?_⟩
  · rw [heq]
    exact storeRun_armed w after t _ _
  · rw [heq]
    rcases hhead with rfl | rfl
    · exact h.trans (Nat.le_add_right ..)
    · exact le_rfl

/-- The clean call for a REP or LOCK store of more than a word. -/
theorem advances_clean (h : t.head ≤ t.cached) (himm : w.imm = none) (hlarge : ¬ w.size ≤ 8)
    (hnarrow : w.wide = false) :
    Advances t ((armed w after t).emitPostWrite w.post) (t.stored w after) := by
  let f : Flight := ⟨w, t.tid, t.seq, after⟩
  have hstored : t.stored w after = [{ f.header with value := 0 }] := by
    simp [Thread.stored, himm, hlarge, hnarrow, f, Flight.header]
  have hcapture : (armed w after t).captureValue w.post (t.capacity.index t.cached) =
      { armed w after t with
        slots := storeRun t.capacity (armed w after t).slots t.cached (t.stored w after) } := by
    rw [hstored]
    simp only [Thread.captureValue, PreWrite.post, himm, hnarrow, Thread.safeReadIntoSlot, hlarge,
      Thread.setValue, Option.isSome_none, Bool.not_false, decide_false, Bool.or_false,
      Bool.and_false, Bool.false_eq_true, if_false, if_true, storeRun]
    rw [show (armed w after t).slots (t.capacity.index t.cached) = _ from slot_armed]
  have hone : (t.stored w after).length = 1 := congrArg List.length hstored
  have hpost : (armed w after t).emitPostWrite w.post =
      { ((armed w after t).captureValue w.post (t.capacity.index t.cached)).bumpHead with
        inlineWrites := t.inlineWrites + 1, seq := t.seq + 1, nesting := false } := by
    rw [hcapture]
    simp only [Thread.emitPostWrite, armed] at hcapture ⊢
    rw [hcapture]
  have hbump := head_bumpHead
    ((armed w after t).captureValue w.post (t.capacity.index t.cached))
  rw [hcapture] at hbump
  rw [hpost, hcapture]
  refine ⟨rfl, rfl, rfl, ?_, by rw [hone]; rfl, ?_⟩
  · show storeRun t.capacity (armed w after t).slots t.cached (t.stored w after) = _
    exact storeRun_armed w after t _ _
  · rcases hbump with hhead | hhead
    · exact hhead.le.trans (h.trans (Nat.le_succ _))
    · exact hhead.le

theorem advances_emitPostWrite (h : t.head ≤ t.cached) :
    Advances t ((armed w after t).emitPostWrite w.post) (t.stored w after) := by
  by_cases hsize : w.imm = none → w.size ≤ 8 ∨ w.wide = true
  · exact advances_inline h hsize
  · obtain ⟨himm, hreread⟩ := Classical.not_imp.mp hsize
    rw [not_or, Bool.not_eq_true] at hreread
    exact advances_clean h himm hreread.1 hreread.2

end PostWrite

/-- A store is dropped, or fills consecutive slots with its events. -/
theorem emitWrite_cases {t : Thread} (h : t.head ≤ t.cached) (env : Env) (w : PreWrite)
    (effect : Memory → Memory) :
    Advances t (t.emitWrite w effect env) (t.writeEvents w effect env) ∧
      (t.emitWrite w effect env).nesting = false ∧
      (env.phase = .trace ∧ t.mapped = true ∨
        (t.emitWrite w effect env).head = t.head ∧ (t.emitWrite w effect env).cached = t.cached) := by
  by_cases hfilled : (t.emitPreWrite w env).scratch1 = none
  · rcases t.emitPreWrite_cases w env with ⟨_, _, _, heq⟩ | heq
    · simp only [Thread.emitWrite, Thread.writeEvents, heq, if_true, Thread.emitPostWrite]
      exact ⟨⟨rfl, rfl, rfl, rfl, rfl, h⟩, trivial, .inr ⟨trivial, trivial⟩⟩
    · rw [heq] at hfilled
      cases hfilled
  · rcases t.emitPreWrite_cases w env with ⟨_, _, _, heq⟩ | heq
    · rw [heq] at hfilled
      exact absurd rfl hfilled
    · refine ⟨?_, ?_, .inl (open_of_filled hfilled)⟩
      · simp only [Thread.emitWrite, Thread.writeEvents, if_neg hfilled]
        rw [heq]
        exact advances_emitPostWrite h
      · simp only [Thread.emitWrite, heq, Thread.emitPostWrite]

theorem Steady.write (h : s.Steady) (hphase : env.phase = s.phase) (w : PreWrite)
    (effect : Memory → Memory) :
    (s.next (s.thread.emitWrite w effect env) (s.thread.writeEvents w effect env)).Steady := by
  obtain ⟨hadvances, hdone, hopen⟩ := emitWrite_cases h.logged.head_le env w effect
  refine h.next hadvances hdone fun hs => ?_
  rcases hopen with ⟨htrace, hmapped⟩ | ⟨hhead, hcached⟩
  · rcases hs with hboot | hunmapped
    · cases (hboot.symm.trans hphase.symm).trans htrace
    · cases hunmapped.symm.trans hmapped
  · rw [hhead, hcached]
    exact h.synced hs

theorem Steady.bbEntry (h : s.Steady) (hphase : env.phase = s.phase) (pc : UInt64) (rip : UInt32) :
    (s.next (s.thread.emitBbEntry pc rip env) (s.thread.bbEvents pc rip env)).Steady := by
  unfold Thread.emitBbEntry Thread.bbEvents
  by_cases htrace : env.phase = .trace
  · by_cases hmapped : s.thread.mapped = true
    · by_cases hbp : s.thread.bp = 0
      · simp only [htrace, hmapped, hbp, ne_eq, not_true_eq_false, Bool.not_true, Bool.false_eq_true,
          if_false, or_self, Bool.true_eq_false]
        refine h.next ⟨rfl, hmapped.symm, rfl, rfl, rfl, ?_⟩ h.nesting fun hs => ?_
        · rcases head_bumpHead _ with hhead | hhead
          · exact hhead.le.trans (h.logged.head_le.trans (Nat.le_succ _))
          · exact hhead.le
        · rcases hs with hboot | hunmapped
          · cases (hboot.symm.trans hphase.symm).trans htrace
          · cases hunmapped.symm.trans hmapped
      · simp only [htrace, hmapped, hbp, ne_eq, not_true_eq_false, Bool.not_true, Bool.false_eq_true,
          if_false, not_false_eq_true, or_true, if_true]
        exact h.keep rfl hmapped.symm rfl rfl rfl rfl h.nesting
    · rw [Bool.not_eq_true] at hmapped
      simp only [htrace, hmapped, ne_eq, not_true_eq_false, Bool.not_false, if_false, if_true,
        true_or, or_true]
      exact h.keep rfl rfl rfl rfl rfl rfl h.nesting
  · simp only [ne_eq, htrace, not_false_eq_true, if_true, true_or]
    exact h.keep rfl rfl rfl rfl rfl rfl h.nesting

/-- The pre hook publishes the cached head. -/
theorem eventPreSyscall_eq {t : Thread} (hmapped : t.mapped = true) :
    t.eventPreSyscall = { t with head := t.cached } := by
  rw [Thread.eventPreSyscall, if_neg (by simp [hmapped])]
  split
  · rfl
  · rename_i hsame
    exact (congrArg (fun head => { t with head := head }) (not_not.mp hsame)).symm

theorem Steady.syscall (h : s.Steady) (hphase : env.phase = s.phase) (c : Syscall) :
    (s.next (s.thread.eventPreSyscall.eventPostSyscall c env)
        (if s.phase = .boot then [] else ungated (c.pushes s.thread) env s.thread)).Steady := by
  cases hmapped : s.thread.mapped with
  | false =>
      have hpre : s.thread.eventPreSyscall = s.thread := by
        simp only [Thread.eventPreSyscall, hmapped, Bool.not_false, if_true]
      have hpost : s.thread.eventPostSyscall c env = s.thread := by
        simp only [Thread.eventPostSyscall, hmapped, Bool.not_false, if_true, ite_self]
      rw [hpre, hpost]
      simp only [ungated, hmapped, Bool.not_false, if_true, ite_self]
      exact h.keep rfl rfl rfl rfl rfl rfl h.nesting
  | true =>
      rw [eventPreSyscall_eq hmapped, Thread.eventPostSyscall, hphase]
      have hquiet : (s.next { s.thread with head := s.thread.cached } []).Steady :=
        h.next ⟨rfl, rfl, rfl, rfl, rfl, le_rfl⟩ h.nesting fun _ => rfl
      have hpushes : c.pushes { s.thread with head := s.thread.cached } = c.pushes s.thread := by
        cases c <;> rfl
      rw [hpushes]
      split
      · exact hquiet
      · have hopen : ungated (c.pushes s.thread) env s.thread =
            (Thread.admitted env s.thread.capacity.size s.thread.cached s.thread.tlsSeq 0
              (c.pushes s.thread)).flatMap Op.slots := by
          simp only [ungated, hmapped, Bool.not_true, Bool.false_eq_true, if_false]
        rw [hopen]
        split
        · rename_i hnone
          rw [hnone]
          exact hquiet
        · obtain ⟨seq, heq⟩ := Thread.pushAll_eq env 0 (c.pushes s.thread)
            { s.thread with head := s.thread.cached }
          rw [heq]
          simp only [Thread.syncHeadCache, hmapped, Bool.not_true, Bool.false_eq_true, if_false,
            if_true]
          exact h.next ⟨rfl, hmapped.symm, rfl, rfl, rfl, le_rfl⟩ h.nesting fun _ => rfl

end Inline

theorem Steady.step {s : Producing} (h : s.Steady) (p : Producer) : (s.step p).Steady := by
  cases p with
  | write w effect env => exact h.write rfl w effect
  | bbEntry pc rip env => exact h.bbEntry rfl pc rip
  | blockEnd env =>
      simp only [Producing.step, Thread.flushHeadCache]
      split
      · exact h.next ⟨rfl, rfl, rfl, rfl, rfl, le_rfl⟩ h.nesting fun _ => rfl
      · exact h.keep rfl rfl rfl rfl rfl rfl h.nesting
  | call c env => exact (h.call rfl c).1
  | syscall c env => exact h.syscall rfl c
  | read addr size env => exact h.keep rfl rfl rfl rfl rfl rfl h.nesting
  | app effect => exact h.keep rfl rfl rfl rfl rfl rfl h.nesting
  | tripwire =>
      refine ⟨h.logged, h.nesting, h.guard, fun hs => h.synced (hs.imp_left fun hboot => ?_)⟩
      cases hboot

theorem steady_init (phase : Phase) (mapped : Bool) (tid : UInt16) (mem : Memory) :
    (init phase mapped tid mem).Steady :=
  ⟨⟨rfl, le_rfl, nofun⟩, rfl, rfl, fun _ => rfl⟩

theorem Steady.run {s : Producing} (h : s.Steady) (producers : List Producer) :
    (s.run producers).Steady := by
  induction producers generalizing s with
  | nil => exact h
  | cons p ps ih => exact ih (h.step p)

theorem Steady.coherent {s : Producing} (h : s.Steady) : s.Coherent where
  published := h.logged.head_le
  accounted := h.logged.cached.trans (List.length_map _)
  slot := by
    intro tail p e htail hp he
    have hentry : (s.log.map Entry.event)[p]? = some (.event e) := by
      rw [List.getElem?_map, he]
      rfl
    exact h.logged.fits p _ hentry (by omega)

/-- In every state that emissions in any order lead to, in either phase, the head cache
is coherent, and right behind a clean call that has something to emit all is published. -/
theorem head_cache_coherent (phase : Phase) (mapped : Bool) (tid : UInt16) (mem : Memory)
    (producers : List Producer) :
    let s := (init phase mapped tid mem).run producers
    s.Coherent ∧ ∀ c env, c.Emits s.thread →
      (s.step (.call c env)).thread.head = (s.step (.call c env)).thread.cached := by
  have hsteady := (steady_init phase mapped tid mem).run producers
  exact ⟨hsteady.coherent, fun c env hemits => (hsteady.call rfl c).2 hemits⟩

/-- `mov byte [0x2000], reg` with 1 in the register. -/
def storesByte : Producer :=
  .write ⟨0x2000, 1, 0x1000, none, false⟩ (fun m => Function.update m 0x2000 (some 1)) .plain

theorem return_publishes_store :
    let s := (init .trace true 7 fun _ => some 0).run [storesByte]
    s.thread.head = 0 ∧ (s.step (.call (.atReturn 0x1010) .plain)).thread.cached = 2 ∧
      (s.step (.call (.atReturn 0x1010) .plain)).thread.head =
        (s.step (.call (.atReturn 0x1010) .plain)).thread.cached :=
  ⟨by decide +kernel, by decide +kernel,
    (head_cache_coherent .trace true 7 (fun _ => some 0) [storesByte]).2 (.atReturn 0x1010) .plain trivial⟩

/-- The flush of an empty read buffer leaves the store unpublished. -/
theorem empty_flush_publishes_nothing :
    let s := (init .trace true 7 fun _ => some 0).run [storesByte, .call .flushReadBuf .plain]
    s.thread.cached = 1 ∧ s.thread.head = 0 := by
  decide +kernel

end Producing

end Rtmap.Tracer
