import Rtmap.Lib.Transition
import Rtmap.Lib.Window
import Rtmap.Ring.Producer

/-!
# One ring: the tracer thread and the engine, step by step

A step moves one field, loads or stores one shared counter, or makes one local
decision, so that runs contain every interleaving of a slot being written with
a slot being read. Shared are the slots, `head` and `tail`; `cached` is the
thread's own head, ahead of the published one between flushes.

Logical indices run on without bound below `2 ^ 64`; `Capacity.index` masks
them. `ops` and `batches` record what was written and what was delivered, and
`Copy.overrun` notes a slot read after the producer moved a lap past it.
-/
namespace Rtmap.Ring

/-- A capacity that `from_shm` accepts: a nonzero power of two of 32 bits. -/
structure Capacity where
  size : ℕ
  isPow : ∃ k, size = 2 ^ k
  fits : size < 2 ^ 32

namespace Capacity

def index (c : Capacity) (p : ℕ) : ℕ := p &&& (c.size - 1)

theorem index_eq_mod (c : Capacity) (p : ℕ) : c.index p = p % c.size := by
  obtain ⟨k, hk⟩ := c.isPow
  rw [index, hk, Window.and_mask_eq_mod]

theorem size_pos (c : Capacity) : 0 < c.size := by
  obtain ⟨k, hk⟩ := c.isPow
  rw [hk]
  exact Nat.two_pow_pos k

theorem index_ne {c : Capacity} {a b : ℕ} (hab : a < b) (hb : b < a + c.size) :
    c.index a ≠ c.index b := by
  rw [index_eq_mod, index_eq_mod]
  exact Window.mod_ne_of_lt hab hb

end Capacity

/-- `RTMAP_THREAD_RING_CAPACITY`: every thread ring has 2^20 slots. -/
def THREAD_RING_CAPACITY : Capacity := ⟨2 ^ 20, ⟨20, rfl⟩, by decide⟩

def HEAD_FLUSH_MASK : ℕ := 0x3F

/-- Slot `i` of an operation's run. -/
def Op.slot (op : Op) (i : ℕ) : Event := op.slots.getD i Event.zero

/-- A slot of the history: the operation that fills it and its place in the run. -/
structure Written where
  op : Op
  pos : ℕ

def Written.event (w : Written) : Event := w.op.slot w.pos

def Op.written (op : Op) : List Written := (List.range op.slots.length).map fun i => ⟨op, i⟩

inductive Producer where
  | idle
  /-- A push that has loaded `head` and not yet passed its fullness test. -/
  | pushing (op : Op) (head : ℕ)
  /-- Slot `base + i` is being filled; `todo` are the fields not yet stored. -/
  | writing (op : Op) (base i : ℕ) (todo : List Field)
  | exited

/-- Events delivered by one call, with the logical index of the first. -/
structure Batch where
  start : ℕ
  events : List Event

/-- Locals of `consume_batch` inside its loop: `t`, `h`, `cap`, `run_tail`, the
events copied so far, and the slot being read. -/
structure Copy where
  tail : ℕ
  head : ℕ
  limit : ℕ
  runTail : ℕ
  out : List Event
  cur : Event
  todo : List Field
  overrun : Bool

inductive Consumer where
  | idle
  | started (outLen tail : ℕ)
  | copying (c : Copy)
  | copied (c : Copy)
  | storing (newTail : ℕ) (batch : Option Batch)

/-- Enter the copy loop at `t` with head `h`, or return 0 when nothing is there. -/
def Consumer.enter (t h outLen : ℕ) : Consumer :=
  if min (h - t) outLen = 0 then .idle
  else .copying ⟨t, h, min (h - t) outLen, 0, [], .zero, Field.all, false⟩

structure State where
  capacity : Capacity
  spin : Bool
  slots : ℕ → Event
  head : ℕ
  tail : ℕ
  terminal : Bool
  cached : ℕ
  producer : Producer
  consumer : Consumer
  lappedEvents : ℕ
  lapEpisodes : ℕ
  alive : Bool
  ops : List Op
  batches : List Batch

namespace State

/-- A freshly created ring, `rtmap_ring_init` on zeroed memory. -/
def init (capacity : Capacity) (spin : Bool) : State where
  capacity := capacity
  spin := spin
  slots := fun _ => Event.zero
  head := 0
  tail := 0
  terminal := false
  cached := 0
  producer := .idle
  consumer := .idle
  lappedEvents := 0
  lapEpisodes := 0
  alive := true
  ops := []
  batches := []

/-- Every slot of every operation so far, by logical index. -/
def written (s : State) : List Written := s.ops.flatMap Op.written

/-- Number of logical indices whose slot the producer has begun to fill. -/
def frontier (s : State) : ℕ :=
  match s.producer with
  | .writing _ base i _ => base + i + 1
  | _ => s.cached

/-- Number of logical indices whose slot is completely filled. -/
def filled (s : State) : ℕ :=
  match s.producer with
  | .writing _ base i _ => base + i
  | _ => s.cached

section Producer

/-- Start an operation. An inline one goes straight to its stores; a push runs in
a clean call, which has published the cached head before it. -/
def beginOp (op : Op) (s : State) : Option State :=
  match s.producer with
  | .idle =>
      if s.cached + op.slots.length < 2 ^ 64 then
        if op.isInline then
          some { s with producer := .writing op s.cached 0 Field.all, ops := s.ops ++ [op] }
        else if s.head = s.cached then
          some { s with producer := .pushing op s.head }
        else none
      else none
  | _ => none

/-- Load the tail and test for room; a refused push spins or returns -1. -/
def loadTail (s : State) : Option State :=
  match s.producer with
  | .pushing op h =>
      if op.admits s.capacity.size h s.tail then
        some { s with producer := .writing op h 0 Field.all, ops := s.ops ++ [op] }
      else if s.spin && op.spins then some s
      else some { s with producer := .idle }
  | _ => none

def storeField (f : Field) (s : State) : Option State :=
  match s.producer with
  | .writing op base i todo =>
      if f ∈ todo then
        some { s with
          slots := Function.update s.slots (s.capacity.index (base + i))
            (Event.put f (op.slot i) (s.slots (s.capacity.index (base + i))))
          producer := .writing op base i (f.drop todo) }
      else none
  | _ => none

/-- Move the head past a finished run. The inline path advances the cached head
and publishes it every 64 events; a push stores `head`, which the clean call
copies back to the cached head. -/
def advance (op : Op) (base : ℕ) (s : State) : State :=
  let head := base + op.slots.length
  if op.isInline then
    { s with
      producer := .idle
      cached := head
      head := if head &&& HEAD_FLUSH_MASK = 0 then head else s.head }
  else { s with producer := .idle, cached := head, head := head }

/-- After a slot's last field, go to the next slot of the run or end it. -/
def finishSlot (s : State) : Option State :=
  match s.producer with
  | .writing op base i [] =>
      if i + 1 < op.slots.length then
        some { s with producer := .writing op base (i + 1) Field.all }
      else some (s.advance op base)
  | _ => none

/-- `flush_head_cache`: block end, clean call or system call. -/
def flush (s : State) : Option State :=
  match s.producer with
  | .idle => some { s with head := s.cached }
  | _ => none

/-- `event_thread_exit` after its flush: nothing is written any more. -/
def exit (s : State) : Option State :=
  match s.producer with
  | .idle =>
      if s.head = s.cached then some { s with producer := .exited, terminal := true } else none
  | _ => none

end Producer

section Consumer

/-- Enter `consume_batch` with an output of `outLen` events (`batch_drain` never
passes an empty one) and load the tail. -/
def call (outLen : ℕ) (s : State) : Option State :=
  match s.consumer with
  | .idle => if 0 < outLen then some { s with consumer := .started outLen s.tail } else none
  | _ => none

/-- `record_lap`. -/
def recordLap (lost : ℕ) (s : State) : State :=
  { s with lappedEvents := s.lappedEvents + lost, lapEpisodes := s.lapEpisodes + 1 }

/-- Load the head; when the producer has lapped the tail, skip to the oldest
slot still intact. -/
def loadHead (s : State) : Option State :=
  match s.consumer with
  | .started outLen t =>
      if s.capacity.size < s.head - t then
        let resync := s.head - s.capacity.size
        some { s.recordLap (resync - t) with consumer := .enter resync s.head outLen }
      else some { s with consumer := .enter t s.head outLen }
  | _ => none

/-- Read one field of slot `t + n`. -/
def readField (f : Field) (s : State) : Option State :=
  match s.consumer with
  | .copying c =>
      if f ∈ c.todo then
        let p := c.tail + c.out.length
        some { s with consumer := .copying { c with
          cur := Event.put f (s.slots (s.capacity.index p)) c.cur
          todo := f.drop c.todo
          overrun := c.overrun || decide (p + s.capacity.size < s.frontier) } }
      else none
  | _ => none

end Consumer

end State

/-- `run_tail` after taking slot `n` with event `e`, or `none` when its run does
not fit in the rest of the batch. The assignment `(slots - 1) as u8` wraps. -/
def runTailAfter (limit n runTail : ℕ) (e : Event) : Option ℕ :=
  if runTail = 0 then
    if e.kind = EVENT_REG_SNAPSHOT then
      if limit < n + REG_SNAPSHOT_SLOTS then none else some 6
    else if e.isCompound then
      if limit < n + e.compoundSlots then none else some ((e.compoundSlots + 255) % 256)
    else some 0
  else some (runTail - 1)

def Copy.nextRunTail (c : Copy) : Option ℕ :=
  runTailAfter c.limit c.out.length c.runTail c.cur

/-- Append the slot just read to the output and turn to the next. -/
def Copy.push (c : Copy) (runTail : ℕ) : Copy :=
  { c with runTail := runTail, out := c.out ++ [c.cur], cur := .zero, todo := Field.all }

namespace State

section Consumer

/-- All fields of a slot are read: append it, or leave the loop. -/
def takeSlot (s : State) : Option State :=
  match s.consumer with
  | .copying c =>
      if c.todo = [] then
        match c.nextRunTail with
        | none => some { s with consumer := .copied c }
        | some r =>
            if c.out.length + 1 < c.limit then some { s with consumer := .copying (c.push r) }
            else some { s with consumer := .copied (c.push r) }
      else none
  | _ => none

/-- Load the head again; discard the batch when it is more than a lap ahead. -/
def recheck (s : State) : Option State :=
  match s.consumer with
  | .copied c =>
      if s.capacity.size < s.head - c.tail then
        let resync := s.head - s.capacity.size
        some { s.recordLap (resync - c.tail) with consumer := .storing resync none }
      else some { s with
        consumer := .storing (c.tail + c.out.length) (some ⟨c.tail, c.out⟩) }
  | _ => none

/-- Store the tail and return. -/
def commit (s : State) : Option State :=
  match s.consumer with
  | .storing newTail batch =>
      some { s with tail := newTail, batches := s.batches ++ batch.toList, consumer := .idle }
  | _ => none

/-- The check of `batch_drain` after a call: a terminal ring whose events are all
consumed is retired. -/
def retire (s : State) : Option State :=
  match s.consumer with
  | .idle => some { s with alive := s.alive && !(s.terminal && s.head == s.tail) }
  | _ => none

end Consumer

end State

section Cases
variable {s s' : State} {op : Op} {f : Field} {outLen : ℕ}

namespace State

theorem beginOp_cases (h : s.beginOp op = some s') :
    s.producer = .idle ∧ s.cached + op.slots.length < 2 ^ 64 ∧
      ((op.isInline = true ∧
        s' = { s with producer := .writing op s.cached 0 Field.all, ops := s.ops ++ [op] }) ∨
      (op.isInline = false ∧ s.head = s.cached ∧
        s' = { s with producer := .pushing op s.head })) := by
  simp only [beginOp] at h
  split at h <;> simp_all
  rename_i hidle
  rcases h with ⟨hroom, h⟩
  cases hin : op.isInline <;> simp_all

theorem loadTail_cases (h : s.loadTail = some s') :
    ∃ op hd, s.producer = .pushing op hd ∧
      ((op.admits s.capacity.size hd s.tail = true ∧
        s' = { s with producer := .writing op hd 0 Field.all, ops := s.ops ++ [op] }) ∨
      (op.admits s.capacity.size hd s.tail = false ∧
        (s' = s ∨ s' = { s with producer := .idle }))) := by
  simp only [loadTail] at h
  split at h
  · rename_i op hd hp
    refine ⟨op, hd, hp, ?_⟩
    cases ha : op.admits s.capacity.size hd s.tail with
    | true =>
        left
        simp_all
    | false =>
        right
        refine ⟨rfl, ?_⟩
        simp only [ha, Bool.false_eq_true, if_false] at h
        split at h
        · left
          simpa using h.symm
        · right
          simpa using h.symm
  · simp at h

theorem storeField_cases (h : s.storeField f = some s') :
    ∃ op base i todo, s.producer = .writing op base i todo ∧ f ∈ todo ∧
      s' = { s with
        slots := Function.update s.slots (s.capacity.index (base + i))
          (Event.put f (op.slot i) (s.slots (s.capacity.index (base + i))))
        producer := .writing op base i (f.drop todo) } := by
  simp only [storeField] at h
  split at h
  · rename_i op base i todo hp
    split at h
    · rename_i hf
      exact ⟨op, base, i, todo, hp, hf, by simpa using h.symm⟩
    · simp at h
  · simp at h

theorem finishSlot_cases (h : s.finishSlot = some s') :
    ∃ op base i, s.producer = .writing op base i [] ∧
      ((i + 1 < op.slots.length ∧
        s' = { s with producer := .writing op base (i + 1) Field.all }) ∨
      (op.slots.length ≤ i + 1 ∧ s' = s.advance op base)) := by
  simp only [finishSlot] at h
  split at h
  · rename_i op base i hp
    refine ⟨op, base, i, hp, ?_⟩
    split at h
    · exact .inl ⟨‹_›, by simpa using h.symm⟩
    · exact .inr ⟨by omega, by simpa using h.symm⟩
  · simp at h

theorem flush_cases (h : s.flush = some s') :
    s.producer = .idle ∧ s' = { s with head := s.cached } := by
  simp only [flush] at h
  split at h
  · exact ⟨‹_›, by simpa using h.symm⟩
  · simp at h

theorem exit_cases (h : s.exit = some s') :
    s.producer = .idle ∧ s.head = s.cached ∧
      s' = { s with producer := .exited, terminal := true } := by
  simp only [exit] at h
  split at h
  · split at h
    · exact ⟨‹_›, ‹_›, by simpa using h.symm⟩
    · simp at h
  · simp at h

theorem call_cases (h : s.call outLen = some s') :
    s.consumer = .idle ∧ 0 < outLen ∧ s' = { s with consumer := .started outLen s.tail } := by
  simp only [call] at h
  split at h
  · split at h
    · exact ⟨‹_›, ‹_›, by simpa using h.symm⟩
    · simp at h
  · simp at h

theorem loadHead_cases (h : s.loadHead = some s') :
    ∃ outLen t, s.consumer = .started outLen t ∧
      ((s.capacity.size < s.head - t ∧
        s' = { s.recordLap (s.head - s.capacity.size - t) with
          consumer := .enter (s.head - s.capacity.size) s.head outLen }) ∨
      (s.head - t ≤ s.capacity.size ∧
        s' = { s with consumer := .enter t s.head outLen })) := by
  simp only [loadHead] at h
  split at h
  · rename_i outLen t hc
    refine ⟨outLen, t, hc, ?_⟩
    split at h
    · exact .inl ⟨‹_›, by simpa using h.symm⟩
    · exact .inr ⟨by omega, by simpa using h.symm⟩
  · simp at h

theorem readField_cases (h : s.readField f = some s') :
    ∃ c, s.consumer = .copying c ∧ f ∈ c.todo ∧
      s' = { s with consumer := .copying { c with
        cur := Event.put f (s.slots (s.capacity.index (c.tail + c.out.length))) c.cur
        todo := f.drop c.todo
        overrun := c.overrun ||
          decide (c.tail + c.out.length + s.capacity.size < s.frontier) } } := by
  simp only [readField] at h
  split at h
  · rename_i c hc
    split at h
    · exact ⟨c, hc, ‹_›, by simpa using h.symm⟩
    · simp at h
  · simp at h

theorem takeSlot_cases (h : s.takeSlot = some s') :
    ∃ c, s.consumer = .copying c ∧ c.todo = [] ∧
      ((c.nextRunTail = none ∧ s' = { s with consumer := .copied c }) ∨
      ∃ r, c.nextRunTail = some r ∧
        ((c.out.length + 1 < c.limit ∧ s' = { s with consumer := .copying (c.push r) }) ∨
        (c.limit ≤ c.out.length + 1 ∧ s' = { s with consumer := .copied (c.push r) }))) := by
  simp only [takeSlot] at h
  split at h
  · rename_i c hc
    split at h
    · refine ⟨c, hc, ‹_›, ?_⟩
      split at h
      · exact .inl ⟨‹_›, by simpa using h.symm⟩
      · rename_i r hr
        refine .inr ⟨r, hr, ?_⟩
        split at h
        · exact .inl ⟨‹_›, by simpa using h.symm⟩
        · exact .inr ⟨by omega, by simpa using h.symm⟩
    · simp at h
  · simp at h

theorem recheck_cases (h : s.recheck = some s') :
    ∃ c, s.consumer = .copied c ∧
      ((s.capacity.size < s.head - c.tail ∧
        s' = { s.recordLap (s.head - s.capacity.size - c.tail) with
          consumer := .storing (s.head - s.capacity.size) none }) ∨
      (s.head - c.tail ≤ s.capacity.size ∧
        s' = { s with
          consumer := .storing (c.tail + c.out.length) (some ⟨c.tail, c.out⟩) })) := by
  simp only [recheck] at h
  split at h
  · rename_i c hc
    refine ⟨c, hc, ?_⟩
    split at h
    · exact .inl ⟨‹_›, by simpa using h.symm⟩
    · exact .inr ⟨by omega, by simpa using h.symm⟩
  · simp at h

theorem commit_cases (h : s.commit = some s') :
    ∃ newTail batch, s.consumer = .storing newTail batch ∧
      s' = { s with
        tail := newTail, batches := s.batches ++ batch.toList, consumer := .idle } := by
  simp only [commit] at h
  split at h
  · exact ⟨_, _, ‹_›, by simpa using h.symm⟩
  · simp at h

theorem retire_cases (h : s.retire = some s') :
    s.consumer = .idle ∧
      s' = { s with alive := s.alive && !(s.terminal && s.head == s.tail) } := by
  simp only [retire] at h
  split at h
  · exact ⟨‹_›, by simpa using h.symm⟩
  · simp at h

end State

end Cases

inductive Label where
  | beginOp (op : Op)
  | loadTail
  | storeField (f : Field)
  | finishSlot
  | flush
  | exit
  | call (outLen : ℕ)
  | loadHead
  | readField (f : Field)
  | takeSlot
  | recheck
  | commit
  | retire

/-- Steps of the tracer thread; the others are the engine's. -/
def Label.isProducer : Label → Bool
  | .beginOp _ | .loadTail | .storeField _ | .finishSlot | .flush | .exit => true
  | _ => false

def step : Label → State → Option State
  | .beginOp op, s => s.beginOp op
  | .loadTail, s => s.loadTail
  | .storeField f, s => s.storeField f
  | .finishSlot, s => s.finishSlot
  | .flush, s => s.flush
  | .exit, s => s.exit
  | .call outLen, s => s.call outLen
  | .loadHead, s => s.loadHead
  | .readField f, s => s.readField f
  | .takeSlot, s => s.takeSlot
  | .recheck, s => s.recheck
  | .commit, s => s.commit
  | .retire, s => s.retire

/-- Nothing the producer owns differs. -/
structure SameProducer (s s' : State) : Prop where
  capacity : s'.capacity = s.capacity
  slots : s'.slots = s.slots
  head : s'.head = s.head
  cached : s'.cached = s.cached
  producer : s'.producer = s.producer
  ops : s'.ops = s.ops
  terminal : s'.terminal = s.terminal

/-- Nothing the consumer owns differs. -/
structure SameConsumer (s s' : State) : Prop where
  capacity : s'.capacity = s.capacity
  tail : s'.tail = s.tail
  consumer : s'.consumer = s.consumer
  lappedEvents : s'.lappedEvents = s.lappedEvents
  lapEpisodes : s'.lapEpisodes = s.lapEpisodes
  batches : s'.batches = s.batches
  alive : s'.alive = s.alive

theorem sameProducer_of_step {l : Label} {s s' : State} (hl : l.isProducer = false)
    (h : step l s = some s') : SameProducer s s' := by
  cases l with
  | beginOp | loadTail | storeField | finishSlot | flush | exit => simp [Label.isProducer] at hl
  | call => obtain ⟨_, _, rfl⟩ := State.call_cases h; exact ⟨rfl, rfl, rfl, rfl, rfl, rfl, rfl⟩
  | loadHead =>
      obtain ⟨_, _, _, ⟨_, rfl⟩ | ⟨_, rfl⟩⟩ := State.loadHead_cases h <;>
        exact ⟨rfl, rfl, rfl, rfl, rfl, rfl, rfl⟩
  | readField =>
      obtain ⟨_, _, _, rfl⟩ := State.readField_cases h
      exact ⟨rfl, rfl, rfl, rfl, rfl, rfl, rfl⟩
  | takeSlot =>
      obtain ⟨_, _, _, ⟨_, rfl⟩ | ⟨_, _, ⟨_, rfl⟩ | ⟨_, rfl⟩⟩⟩ := State.takeSlot_cases h <;>
        exact ⟨rfl, rfl, rfl, rfl, rfl, rfl, rfl⟩
  | recheck =>
      obtain ⟨_, _, ⟨_, rfl⟩ | ⟨_, rfl⟩⟩ := State.recheck_cases h <;>
        exact ⟨rfl, rfl, rfl, rfl, rfl, rfl, rfl⟩
  | commit =>
      obtain ⟨_, _, _, rfl⟩ := State.commit_cases h
      exact ⟨rfl, rfl, rfl, rfl, rfl, rfl, rfl⟩
  | retire => obtain ⟨_, rfl⟩ := State.retire_cases h; exact ⟨rfl, rfl, rfl, rfl, rfl, rfl, rfl⟩

theorem sameConsumer_of_step {l : Label} {s s' : State} (hl : l.isProducer = true)
    (h : step l s = some s') : SameConsumer s s' := by
  cases l with
  | beginOp =>
      obtain ⟨_, _, ⟨_, rfl⟩ | ⟨_, _, rfl⟩⟩ := State.beginOp_cases h <;>
        exact ⟨rfl, rfl, rfl, rfl, rfl, rfl, rfl⟩
  | loadTail =>
      obtain ⟨_, _, _, ⟨_, rfl⟩ | ⟨_, rfl | rfl⟩⟩ := State.loadTail_cases h <;>
        exact ⟨rfl, rfl, rfl, rfl, rfl, rfl, rfl⟩
  | storeField =>
      obtain ⟨_, _, _, _, _, _, rfl⟩ := State.storeField_cases h
      exact ⟨rfl, rfl, rfl, rfl, rfl, rfl, rfl⟩
  | finishSlot =>
      obtain ⟨op, _, _, _, ⟨_, rfl⟩ | ⟨_, rfl⟩⟩ := State.finishSlot_cases h
      · exact ⟨rfl, rfl, rfl, rfl, rfl, rfl, rfl⟩
      · unfold State.advance
        split <;> exact ⟨rfl, rfl, rfl, rfl, rfl, rfl, rfl⟩
  | flush => obtain ⟨_, rfl⟩ := State.flush_cases h; exact ⟨rfl, rfl, rfl, rfl, rfl, rfl, rfl⟩
  | exit => obtain ⟨_, _, rfl⟩ := State.exit_cases h; exact ⟨rfl, rfl, rfl, rfl, rfl, rfl, rfl⟩
  | call | loadHead | readField | takeSlot | recheck | commit | retire =>
      simp [Label.isProducer] at hl

/-- Only the last step of a call moves the tail and delivers. -/
theorem tail_of_step {l : Label} {s s' : State} (hl : l ≠ .commit) (h : step l s = some s') :
    s'.tail = s.tail ∧ s'.batches = s.batches := by
  cases hp : l.isProducer with
  | true =>
      have e := sameConsumer_of_step hp h
      exact ⟨e.tail, e.batches⟩
  | false =>
      cases l with
      | beginOp | loadTail | storeField | finishSlot | flush | exit => simp [Label.isProducer] at hp
      | call => obtain ⟨_, _, rfl⟩ := State.call_cases h; exact ⟨rfl, rfl⟩
      | loadHead =>
          obtain ⟨_, _, _, ⟨_, rfl⟩ | ⟨_, rfl⟩⟩ := State.loadHead_cases h <;> exact ⟨rfl, rfl⟩
      | readField => obtain ⟨_, _, _, rfl⟩ := State.readField_cases h; exact ⟨rfl, rfl⟩
      | takeSlot =>
          obtain ⟨_, _, _, ⟨_, rfl⟩ | ⟨_, _, ⟨_, rfl⟩ | ⟨_, rfl⟩⟩⟩ := State.takeSlot_cases h <;>
            exact ⟨rfl, rfl⟩
      | recheck =>
          obtain ⟨_, _, ⟨_, rfl⟩ | ⟨_, rfl⟩⟩ := State.recheck_cases h <;> exact ⟨rfl, rfl⟩
      | commit => exact absurd rfl hl
      | retire => obtain ⟨_, rfl⟩ := State.retire_cases h; exact ⟨rfl, rfl⟩

/-- Any interleaving in which the producer starts only operations with `P`. -/
def Begins (P : Op → Prop) : Label → State → Prop
  | .beginOp op, _ => P op
  | _, _ => True

/-- Runs of one ring from `s₀` whose steps all meet `ok`. -/
abbrev Run (ok : Label → State → Prop) (s₀ s : State) : Prop := Transition.Reach step ok s₀ s

end Rtmap.Ring
