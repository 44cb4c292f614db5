import Rtmap.Ring.System

/-!
# The tracer's write path on one thread

What the emitted code and the clean calls do to the thread's state: the raw TLS
slots, the scratch pad, the read buffer and the ring's slots. A store is recorded
in two halves around the application's instruction. The first fills the slot at
the cached head and leaves the slot in the scratch pad; the second stores the
value and moves the cached head. Nothing reserves the slot in between.
-/
namespace Rtmap.Tracer
open Rtmap.Ring

inductive Phase where
  | boot
  | trace
deriving DecidableEq, Repr

/-- The bytes that a thread can read; none at an address that is not mapped. -/
abbrev Memory := UInt64 → Option UInt8

def byteAt (m : Memory) (a : UInt64) : UInt8 := (m a).getD 0

/-- `n` bytes from `a` on, little-endian; a byte that is not mapped counts as 0. -/
def wordAt (m : Memory) : UInt64 → ℕ → UInt64
  | _, 0 => 0
  | a, n + 1 => (byteAt m a).toUInt64 ||| (wordAt m (a + 1) n <<< 8)

/-- All of the bytes are mapped. -/
def Readable (m : Memory) (a : UInt64) (n : ℕ) : Prop :=
  ∀ k < n, (m (a + UInt64.ofNat k)).isSome = true

instance (m : Memory) (a : UInt64) (n : ℕ) : Decidable (Readable m a n) :=
  inferInstanceAs (Decidable (∀ k < n, (m (a + UInt64.ofNat k)).isSome = true))

/-- A load of the tracer's own. One that faults gives 0: `event_signal_fastpath_recover` zeroes
the register of an inline load, and `DR_TRY_EXCEPT` leaves the value of a clean call at 0. -/
def readMem (m : Memory) (a : UInt64) (n : ℕ) : UInt64 :=
  if Readable m a n then wordAt m a n else 0

/-- The mask under which `ccc_audit_verify` compares a recorded value with memory. -/
def sizeMask (size : UInt32) : UInt64 :=
  if 8 ≤ size then 0xFFFFFFFFFFFFFFFF else (1 <<< (size.toUInt64 * 8)) - 1

structure ReadEntry where
  addr : UInt64
  size : UInt32
  value : UInt64
deriving DecidableEq, Repr

def RDBUF_CAP : ℕ := 16
def BP_TIER_SHED_WRITES : ℕ := 2

/-- One thread of the traced program with its ring. `cached`, `seq` and `bp` are
raw TLS slots; `scratch1` is the ring slot of the store in flight, or null. -/
structure Thread where
  capacity : Capacity
  mapped : Bool
  slots : ℕ → Event
  head : ℕ
  cached : ℕ
  seq : UInt32
  tlsSeq : UInt32
  tid : UInt16
  bp : ℕ
  guard : Bool
  scratch0 : UInt64
  scratch1 : Option ℕ
  nesting : Bool
  rdbuf : List ReadEntry
  mem : Memory
  reentrantDrops : ℕ
  shedWrites : ℕ
  shedBb : ℕ
  inlineWrites : ℕ
  truncatedWrites : ℕ

/-- What other threads and the engine decide while one piece of code runs. -/
structure Env where
  phase : Phase
  /-- The tail that the `i`-th push of a clean call sees last. -/
  tail : ℕ → ℕ
  /-- The ring's backpressure at the `i`-th push, or at a read. -/
  pressure : ℕ → ℕ
  /-- The tier mirrored into raw TLS. -/
  tier : ℕ
  /-- `rtmap_bloom_query` on the address being read. -/
  priority : Bool
  /-- The module base, when this call wins the race to announce it. -/
  moduleLoad : Option UInt64
  insnCounter : UInt64
  /-- The registers, when `dr_get_mcontext` succeeds. -/
  regs : Option (ℕ → UInt64)

/-- Nothing sheds and nothing else runs. -/
def Env.plain : Env where
  phase := .trace
  tail := fun _ => 0
  pressure := fun _ => 0
  tier := 0
  priority := true
  moduleLoad := none
  insnCounter := 0
  regs := none

/-- Static and run-time arguments of the first half of a store. -/
structure PreWrite where
  ea : UInt64
  size : UInt32
  rip : UInt32
  imm : Option UInt64
  wide : Bool

structure PostWrite where
  size : UInt32
  valueInline : Bool
  wide : Bool
deriving DecidableEq

def PreWrite.post (w : PreWrite) : PostWrite := ⟨w.size, w.imm.isSome, w.wide⟩

/-- Store events one after the other from logical index `base` on. -/
def storeRun (c : Capacity) (slots : ℕ → Event) (base : ℕ) : List Event → ℕ → Event
  | [] => slots
  | e :: es => storeRun c (Function.update slots (c.index base) e) (base + 1) es

/-- Where continuation `k` of a wide store reads, and how many bytes. -/
def chunkAddr (ea : UInt64) (k : ℕ) : UInt64 := ea + (k + 1 : ℕ).toUInt64 * 8

def chunkSize (size : UInt32) (k : ℕ) : ℕ := (min (size - (k + 1 : ℕ).toUInt32 * 8) 8).toNat

namespace Thread

/-- A thread as `event_thread_init` leaves it, with or without a ring. -/
def start (capacity : Capacity) (mapped : Bool) (tid : UInt16) (mem : Memory) : Thread where
  capacity := capacity
  mapped := mapped
  slots := fun _ => .zero
  head := 0
  cached := 0
  seq := 0
  tlsSeq := 0
  tid := tid
  bp := 0
  guard := false
  scratch0 := 0
  scratch1 := none
  nesting := false
  rdbuf := []
  mem := mem
  reentrantDrops := 0
  shedWrites := 0
  shedBb := 0
  inlineWrites := 0
  truncatedWrites := 0

/-- Move the cached head by one and publish it every 64 events. -/
def bumpHead (t : Thread) : Thread :=
  { t with
    cached := t.cached + 1
    head := if (t.cached + 1) &&& HEAD_FLUSH_MASK = 0 then t.cached + 1 else t.head }

def setValue (i : ℕ) (value : UInt64) (t : Thread) : Thread :=
  { t with slots := Function.update t.slots i { t.slots i with value := value } }

def emitBbEntry (pc : UInt64) (rip : UInt32) (env : Env) (t : Thread) : Thread :=
  if env.phase ≠ .trace then t
  else if !t.mapped then t
  else if t.bp ≠ 0 then { t with shedBb := t.shedBb + 1 }
  else
    bumpHead { t with
      slots := Function.update t.slots (t.capacity.index t.cached)
        ((Op.bbEntry pc t.tid t.seq rip).slot 0)
      seq := t.seq + 1 }

/-- What the first half stores into a slot; the value only for an immediate. -/
def preWritten (w : PreWrite) (t : Thread) (old : Event) : Event where
  addr := w.ea
  size := w.size
  threadId := t.tid
  seq := seqLo t.seq
  value := w.imm.getD old.value
  kindFlags := makeKf EVENT_WRITE (if w.wide then FLAG_COMPOUND else 0) (seqHi t.seq)
  ripLo := w.rip

def emitPreWrite (w : PreWrite) (env : Env) (t : Thread) : Thread :=
  if env.phase ≠ .trace then { t with scratch1 := none }
  else if t.nesting then
    { t with scratch0 := w.ea, reentrantDrops := t.reentrantDrops + 1, scratch1 := none }
  else if !t.mapped then { t with scratch0 := w.ea, scratch1 := none }
  else if BP_TIER_SHED_WRITES ≤ t.bp then
    { t with scratch0 := w.ea, shedWrites := t.shedWrites + 1, scratch1 := none }
  else
    let i := t.capacity.index t.cached
    { t with
      scratch0 := w.ea
      slots := Function.update t.slots i (t.preWritten w (t.slots i))
      scratch1 := some i
      nesting := true }

/-- The bytes of continuation `k` of a wide store at `ea`. -/
def chunk (m : Memory) (ea : UInt64) (size : UInt32) (k : ℕ) : UInt64 :=
  readMem m (chunkAddr ea k) (chunkSize size k)

def compoundFillContinuations (size : UInt32) (t : Thread) : Thread :=
  match t.scratch1 with
  | none => t
  | some header =>
      if totalSlots size ≤ 1 then t
      else { t with
        slots := storeRun t.capacity t.slots (header + 1)
          ((List.range (totalSlots size - 1)).map
            (continuation t.scratch0 size (t.slots header).threadId
              (chunk t.mem t.scratch0 size)))
        cached := t.cached + (totalSlots size - 1)
        truncatedWrites := t.truncatedWrites + 1 }

/-- The clean-call fallback: values of at most 8 bytes, else 0. -/
def safeReadIntoSlot (addr : UInt64) (size : UInt32) (i : ℕ) (t : Thread) : Thread :=
  t.setValue i (if size ≤ 8 then readMem t.mem addr size.toNat else 0)

/-- Re-read the value from memory unless it was an immediate. -/
def captureValue (p : PostWrite) (i : ℕ) (t : Thread) : Thread :=
  if !p.valueInline && (p.size ≤ 8 || p.wide) then
    let t := t.setValue i (readMem t.mem t.scratch0 8)
    if p.wide then t.compoundFillContinuations p.size else t
  else if !p.valueInline then t.safeReadIntoSlot t.scratch0 p.size i
  else t

def emitPostWrite (p : PostWrite) (t : Thread) : Thread :=
  match t.scratch1 with
  | none => { t with nesting := false }
  | some i =>
      let t := t.captureValue p i
      { t.bumpHead with inlineWrites := t.inlineWrites + 1, seq := t.seq + 1, nesting := false }

def flushHeadCache (env : Env) (t : Thread) : Thread :=
  if t.mapped then { t with head := t.cached, bp := env.tier } else t

def syncHeadCache (env : Env) (t : Thread) : Thread :=
  if t.mapped then { t with cached := t.head, bp := env.tier } else t

/-- One push of a clean call: its operation, given the next sequence number, and
whether `rtmap_push_sampled` sheds it under backpressure. -/
structure Push where
  op : UInt32 → Op
  sampled : Bool

/-- The pushes of one clean call that are admitted, from the `i`-th on. -/
def admitted (env : Env) (capacity head : ℕ) (seq : UInt32) : ℕ → List Push → List Op
  | _, [] => []
  | i, p :: ps =>
      let op := p.op seq
      if (p.sampled && env.pressure i ≠ 0) || !op.admits capacity head (env.tail i) then
        admitted env capacity head (seq + 1) (i + 1) ps
      else op :: admitted env capacity (head + op.slots.length) (seq + 1) (i + 1) ps

/-- The pushes of one clean call, each at the ring's own head. -/
def pushAll (env : Env) : ℕ → List Push → Thread → Thread
  | _, [], t => t
  | i, p :: ps, t =>
      let op := p.op t.tlsSeq
      let t := { t with tlsSeq := t.tlsSeq + 1 }
      if (p.sampled && env.pressure i ≠ 0) ||
          !op.admits t.capacity.size t.head (env.tail i) then
        pushAll env (i + 1) ps t
      else pushAll env (i + 1) ps { t with
        slots := storeRun t.capacity t.slots t.head op.slots
        head := t.head + op.slots.length }

/-- The frame of a clean call that pushes: gates, flush, pushes, sync. The syncs
that `at_call` makes between its pushes are read by nothing. -/
def cleanCall (pushes : Thread → List Push) (env : Env) (t : Thread) : Thread :=
  if env.phase = .boot then t
  else if t.guard then t
  else if !t.mapped then t
  else ((t.flushHeadCache env).pushAll env 0 (pushes t)).syncHeadCache env

def pushEx (addr : UInt64) (size : UInt32) (value : UInt64) (kind : UInt8) (tid : UInt16) : Push :=
  ⟨fun seq => .pushExFlags addr size value kind 0 tid seq, false⟩

def callPushes (callee frameBase : UInt64) (env : Env) (t : Thread) : List Push :=
  env.moduleLoad.toList.map (fun base => pushEx base 0 0 EVENT_MODULE_LOAD t.tid) ++
  [pushEx callee 0 frameBase EVENT_CALL t.tid] ++
  env.regs.toList.map (fun regs =>
    ⟨fun seq => .pushRegSnapshot (env.insnCounter + 8) regs t.tid seq, false⟩)

def atCall (callee frameBase : UInt64) (env : Env) : Thread → Thread :=
  cleanCall (callPushes callee frameBase env) env

def returnPushes (retaddr : UInt64) (t : Thread) : List Push :=
  [pushEx retaddr 0 0 EVENT_RETURN t.tid]

def atReturn (retaddr : UInt64) (env : Env) : Thread → Thread :=
  cleanCall (returnPushes retaddr) env

def tailCallPushes (target frameBase : UInt64) (t : Thread) : List Push :=
  [pushEx target 0 frameBase EVENT_TAIL_CALL t.tid]

def atTailCall (target frameBase : UInt64) (env : Env) : Thread → Thread :=
  cleanCall (tailCallPushes target frameBase) env

/-- `safe_read_value`: 0 for more than 8 bytes. -/
def safeReadValue (t : Thread) (addr : UInt64) (size : UInt32) : UInt64 :=
  if size ≤ 8 then readMem t.mem addr size.toNat else 0

def reloadPushes (src : UInt64) (size : UInt32) (reg : UInt8) (t : Thread) : List Push :=
  [⟨fun seq => .pushExFlags src size (t.safeReadValue src size) EVENT_RELOAD reg t.tid seq, false⟩]

def atReload (src : UInt64) (size : UInt32) (reg : UInt8) (env : Env) : Thread → Thread :=
  cleanCall (reloadPushes src size reg) env

/-- The entry that `at_mem_read_buf` appends, unless it sheds the read. -/
def recorded (addr : UInt64) (size : UInt32) (env : Env) (t : Thread) : Option ReadEntry :=
  if env.phase = .boot then none
  else if t.mapped && env.pressure 0 ≠ 0 && !env.priority then none
  else if RDBUF_CAP ≤ t.rdbuf.length then none
  else some ⟨addr, size, t.safeReadValue addr size⟩

def atMemReadBuf (addr : UInt64) (size : UInt32) (env : Env) (t : Thread) : Thread :=
  { t with rdbuf := t.rdbuf ++ (t.recorded addr size env).toList }

/-- The READ pushes of the read buffer. -/
def readPushes (t : Thread) : List Push :=
  t.rdbuf.map fun r => ⟨fun seq => .pushExFlags r.addr r.size r.value EVENT_READ 0 t.tid seq, true⟩

def flushReadBuf (env : Env) (t : Thread) : Thread :=
  if env.phase = .boot then t
  else if t.guard then t
  else if t.rdbuf = [] then t
  else if !t.mapped then { t with rdbuf := [] }
  else { ((t.flushHeadCache env).pushAll env 0 t.readPushes).syncHeadCache env with rdbuf := [] }

def flushReadBufIfNeeded (needed : ℕ) (env : Env) (t : Thread) : Thread :=
  if env.phase = .boot then t
  else if t.rdbuf.length + needed ≤ RDBUF_CAP then t
  else t.flushReadBuf env

end Thread

section StoreRun
variable {c : Capacity} {slots : ℕ → Event} {base p : ℕ}

theorem storeRun_append (xs ys : List Event) :
    storeRun c slots base (xs ++ ys) =
      storeRun c (storeRun c slots base xs) (base + xs.length) ys := by
  induction xs generalizing slots base with
  | nil => rfl
  | cons x xs ih =>
      simp only [List.cons_append, storeRun, ih, List.length_cons]
      rw [show base + 1 + xs.length = base + (xs.length + 1) by omega]

/-- Positions before the run keep their slots while the run does not lap them. -/
theorem storeRun_before (events : List Event) (hp : p < base)
    (hlap : base + events.length ≤ p + c.size) :
    storeRun c slots base events (c.index p) = slots (c.index p) := by
  induction events generalizing slots base with
  | nil => rfl
  | cons e es ih =>
      simp only [List.length_cons] at hlap
      rw [storeRun, ih (by omega) (by omega),
        Function.update_of_ne (Capacity.index_ne hp (by omega))]

theorem storeRun_at {events : List Event} {j : ℕ} {e : Event} (he : events[j]? = some e)
    (hlap : events.length ≤ j + c.size) :
    storeRun c slots base events (c.index (base + j)) = e := by
  induction events generalizing slots base j with
  | nil => simp at he
  | cons x xs ih =>
      simp only [List.length_cons] at hlap
      cases j with
      | zero =>
          obtain rfl : x = e := by simpa using he
          calc storeRun c (Function.update slots (c.index base) x) (base + 1) xs (c.index base)
              = Function.update slots (c.index base) x (c.index base) :=
                storeRun_before xs (Nat.lt_succ_self base) (by omega)
            _ = x := Function.update_self ..
      | succ j =>
          rw [storeRun, show base + (j + 1) = base + 1 + j by omega]
          exact ih (by simpa using he) (by omega)

theorem index_index_add (c : Capacity) (p k : ℕ) : c.index (c.index p + k) = c.index (p + k) := by
  simp only [Capacity.index_eq_mod, Nat.mod_add_mod]

/-- Only the base's index matters. -/
theorem storeRun_index (events : List Event) (k : ℕ) :
    storeRun c slots (c.index p + k) events = storeRun c slots (p + k) events := by
  induction events generalizing slots k with
  | nil => rfl
  | cons e es ih =>
      simp only [storeRun, index_index_add, Nat.add_assoc]
      exact ih (k + 1)

end StoreRun

namespace Thread

/-- Pushes fill consecutive slots from the ring's head on with what is admitted. -/
theorem pushAll_eq (env : Env) (i : ℕ) (ps : List Push) (t : Thread) :
    ∃ seq, t.pushAll env i ps =
      let events := (admitted env t.capacity.size t.head t.tlsSeq i ps).flatMap Op.slots
      { t with
        slots := storeRun t.capacity t.slots t.head events
        head := t.head + events.length
        tlsSeq := seq } := by
  induction ps generalizing i t with
  | nil => exact ⟨t.tlsSeq, rfl⟩
  | cons p ps ih =>
      simp only [pushAll, admitted]
      split
      · exact ih (i + 1) { t with tlsSeq := t.tlsSeq + 1 }
      · obtain ⟨seq, h⟩ := ih (i + 1) { t with
          slots := storeRun t.capacity t.slots t.head (p.op t.tlsSeq).slots
          head := t.head + (p.op t.tlsSeq).slots.length
          tlsSeq := t.tlsSeq + 1 }
        refine ⟨seq, h.trans ?_⟩
        simp only [List.flatMap_cons, storeRun_append, List.length_append, Nat.add_assoc]

/-- The first half drops the store, or fills the slot at the cached head. -/
theorem emitPreWrite_cases (t : Thread) (w : PreWrite) (env : Env) :
    (∃ scratch0 reentrantDrops shedWrites, t.emitPreWrite w env = { t with
        scratch0 := scratch0
        scratch1 := none
        reentrantDrops := reentrantDrops
        shedWrites := shedWrites }) ∨
      t.emitPreWrite w env = { t with
        scratch0 := w.ea
        slots := Function.update t.slots (t.capacity.index t.cached)
          (t.preWritten w (t.slots (t.capacity.index t.cached)))
        scratch1 := some (t.capacity.index t.cached)
        nesting := true } := by
  unfold emitPreWrite
  split
  · exact .inl ⟨_, _, _, rfl⟩
  · split
    · exact .inl ⟨_, _, _, rfl⟩
    · split
      · exact .inl ⟨_, _, _, rfl⟩
      · split
        · exact .inl ⟨_, _, _, rfl⟩
        · exact .inr rfl

theorem captureValue_frame (p : PostWrite) (i : ℕ) (t : Thread) :
    (t.captureValue p i).scratch1 = t.scratch1 ∧ (t.captureValue p i).head = t.head ∧
      (t.captureValue p i).capacity = t.capacity ∧ t.cached ≤ (t.captureValue p i).cached := by
  unfold captureValue
  split
  · simp only [compoundFillContinuations, setValue]
    split
    · split
      · simp
      · split <;> simp
    · simp
  · split <;> simp [safeReadIntoSlot, setValue]

/-- From the slot at the cached head, a second half fills consecutive slots. -/
theorem captureValue_run (p : PostWrite) (t : Thread)
    (hs1 : t.scratch1 = some (t.capacity.index t.cached)) :
    ∃ e rest, (t.captureValue p (t.capacity.index t.cached)).slots =
        storeRun t.capacity t.slots t.cached (e :: rest) ∧
      (t.captureValue p (t.capacity.index t.cached)).cached = t.cached + rest.length := by
  have hone (value : UInt64) : ∃ e rest,
      (t.setValue (t.capacity.index t.cached) value).slots =
        storeRun t.capacity t.slots t.cached (e :: rest) ∧
      (t.setValue (t.capacity.index t.cached) value).cached = t.cached + rest.length :=
    ⟨_, [], rfl, rfl⟩
  unfold captureValue
  split
  · split
    · simp only [compoundFillContinuations, setValue, hs1]
      split
      · exact hone _
      · refine ⟨{ t.slots (t.capacity.index t.cached) with value := readMem t.mem t.scratch0 8 },
          (List.range (totalSlots p.size - 1)).map (continuation t.scratch0 p.size
            (t.slots (t.capacity.index t.cached)).threadId (chunk t.mem t.scratch0 p.size)), ?_, ?_⟩
        · simp only [storeRun_index, Function.update_self, storeRun]
        · simp only [List.length_map, List.length_range]
    · exact hone _
  · split
    · exact hone _
    · exact ⟨t.slots (t.capacity.index t.cached), [],
        (Function.update_eq_self (t.capacity.index t.cached) t.slots).symm, rfl⟩

end Thread

end Rtmap.Tracer
