import Rtmap.Lib.Transition
import Rtmap.Tracer.BasicBlock

/-!
# Slots hold one store each

A thread runs instrumented blocks. `Ghost` records what each advance of the
cached head stands for: the store whose halves enclose it, or a pushed event.
`slots_fit_with_room` says that the slots hold just that, as long as nothing is
pushed while a store is in flight.
-/
namespace Rtmap.Tracer
open Rtmap.Ring Transition

/-- A store between its halves: its arguments, the thread's counters at the first
half, and memory as the instruction leaves it. -/
structure Flight where
  w : PreWrite
  tid : UInt16
  seq : UInt32
  after : Memory

/-- The event of a store but for its value. -/
def Flight.header (f : Flight) : Event where
  addr := f.w.ea
  size := f.w.size
  threadId := f.tid
  seq := seqLo f.seq
  value := 0
  kindFlags := makeKf EVENT_WRITE (if f.w.wide then FLAG_COMPOUND else 0) (seqHi f.seq)
  ripLo := f.w.rip

/-- What one position below the cached head stands for: slot `k` of a store, or
an event that a push or a block entry filled it with. -/
inductive Entry where
  | store (f : Flight) (k : ℕ)
  | event (e : Event)

/-- The bytes that a wide store leaves in the place of continuation `k`. -/
def storedChunk (m : Memory) (ea : UInt64) (size : UInt32) (k : ℕ) : UInt64 :=
  wordAt m (chunkAddr ea k) (chunkSize size k)

/-- The slot holds the entry. The value of a store is compared on its bytes. -/
def Entry.Fits : Entry → Event → Prop
  | .store f 0, e =>
      e = { f.header with value := e.value } ∧
        e.value &&& sizeMask f.w.size = wordAt f.after f.w.ea 8 &&& sizeMask f.w.size
  | .store f (k + 1), e =>
      e = continuation f.w.ea f.w.size f.tid (storedChunk f.after f.w.ea f.w.size) k
  | .event x, e => e = x

structure Ghost where
  log : List Entry
  inFlight : Option Flight
  reads : List ReadEntry

/-- The events that a clean call's admitted pushes publish. -/
def pushed (pushes : Thread → List Thread.Push) (env : Env) (t : Thread) : List Event :=
  if env.phase = .boot ∨ t.guard ∨ !t.mapped then []
  else (Thread.admitted env t.capacity.size t.cached t.tlsSeq 0 (pushes t)).flatMap Op.slots

def Ghost.push (g : Ghost) (events : List Event) : Ghost :=
  { g with log := g.log ++ events.map .event }

def Ghost.next (env : Env) (t : Thread) (g : Ghost) : Action → Ghost
  | .emitBbEntry pc rip =>
      g.push (List.replicate ((t.emitBbEntry pc rip env).cached - t.cached)
        ((Op.bbEntry pc t.tid t.seq rip).slot 0))
  | .emitPreWrite w effect =>
      { g with inFlight :=
          (t.emitPreWrite w env).scratch1.map fun _ => ⟨w, t.tid, t.seq, effect t.mem⟩ }
  | .emitPostWrite p =>
      match g.inFlight with
      | none => g
      | some f =>
          { g with
            inFlight := none
            log := g.log ++ (List.range ((t.emitPostWrite p).cached - t.cached)).map (.store f) }
  | .atCall callee frameBase => g.push (pushed (Thread.callPushes callee frameBase env) env t)
  | .atReturn retaddr => g.push (pushed (Thread.returnPushes retaddr) env t)
  | .atTailCall target frameBase => g.push (pushed (Thread.tailCallPushes target frameBase) env t)
  | .atReload src size reg => g.push (pushed (Thread.reloadPushes src size reg) env t)
  | .flushReadBufIfNeeded needed =>
      if t.rdbuf.length + needed ≤ RDBUF_CAP then g else g.push (pushed Thread.readPushes env t)
  | .atMemReadBuf addr size =>
      { g with reads := g.reads ++ (t.recorded addr size env).toList }
  | .flushReadBuf => g.push (pushed Thread.readPushes env t)
  | .flushHeadCache | .app _ => g

/-- A thread and what is left of the block it runs. -/
structure Running where
  todo : List Action
  thread : Thread
  ghost : Ghost

inductive Label where
  | enter (block : List Instr)
  | run (env : Env)

def step : Label → Running → Option Running
  | .enter block, s =>
      match s.todo with
      | [] => some { s with todo := eventBbInsert block }
      | _ :: _ => none
  | .run env, s =>
      match s.todo with
      | [] => none
      | a :: rest => some ⟨rest, exec env s.thread a, s.ghost.next env s.thread a⟩

/-- A thread before its first block. -/
def Running.init (capacity : Capacity) (mapped : Bool) (tid : UInt16) (mem : Memory) : Running :=
  ⟨[], .start capacity mapped tid mem, ⟨[], none, []⟩⟩

/-- The re-read of the store in flight does not fault, or faults where the store left zeros; nor
do those of its continuations. -/
def ReadsBack (p : PostWrite) (t : Thread) : Prop :=
  p.valueInline = false → t.scratch1 ≠ none →
    (Readable t.mem t.scratch0 8 ∨ wordAt t.mem t.scratch0 8 &&& sizeMask p.size = 0) ∧
      (p.wide = true → ∀ k < totalSlots p.size - 1,
        Readable t.mem (chunkAddr t.scratch0 k) (chunkSize p.size k))

/-- The condition of a run: stores are captured, their re-reads do not fault, and the read buffer
has room for the reads of an instruction whose store is in flight. -/
def Room : Label → Running → Prop
  | .enter block, _ => Captured block
  | .run _, s =>
      (∀ needed rest, s.todo = .flushReadBufIfNeeded needed :: rest → s.thread.nesting = true →
        s.thread.rdbuf.length + needed ≤ RDBUF_CAP) ∧
      ∀ p rest, s.todo = .emitPostWrite p :: rest → ReadsBack p s.thread

/-- The log accounts for every position below the cached head, and the slots hold
their entries until the thread, up to `frontier`, is a lap past them. -/
structure Logged (frontier : ℕ) (t : Thread) (log : List Entry) : Prop where
  cached : t.cached = log.length
  head_le : t.head ≤ t.cached
  fits : ∀ p e, log[p]? = some e → frontier ≤ p + t.capacity.size →
    e.Fits (t.slots (t.capacity.index p))

section Logged
variable {t t' : Thread} {log : List Entry} {frontier : ℕ}

theorem Logged.congr (h : Logged frontier t log) (hcap : t'.capacity = t.capacity)
    (hslots : t'.slots = t.slots) (hcached : t'.cached = t.cached) (hhead : t'.head ≤ t.cached) :
    Logged frontier t' log where
  cached := hcached.trans h.cached
  head_le := hhead.trans hcached.ge
  fits := by
    rw [hcap, hslots]
    exact h.fits

/-- An advance over slots that were stored for it. -/
theorem Logged.append (h : Logged frontier t log) {events : List Event} {entries : List Entry}
    (hlen : entries.length = events.length)
    (hfits : ∀ (j : ℕ) (e : Entry) (x : Event), entries[j]? = some e → events[j]? = some x →
      e.Fits x)
    (hfront : frontier ≤ t.cached + events.length) (hcap : t'.capacity = t.capacity)
    (hslots : t'.slots = storeRun t.capacity t.slots t.cached events)
    (hcached : t'.cached = t.cached + events.length) (hhead : t'.head ≤ t'.cached) :
    Logged t'.cached t' (log ++ entries) where
  cached := by rw [hcached, h.cached, List.length_append, hlen]
  head_le := hhead
  fits := by
    intro p e he hlap
    have hlog := h.cached
    rw [hcached, hcap] at hlap
    rw [hcap, hslots]
    by_cases hp : p < log.length
    · rw [List.getElem?_append_left hp] at he
      rw [storeRun_before events (by omega) hlap]
      exact h.fits p e he (by omega)
    · rw [List.getElem?_append_right (by omega)] at he
      have hj : p - log.length < events.length := by
        rw [← hlen]
        exact (List.getElem?_eq_some_iff.mp he).choose
      have hat := List.getElem?_eq_getElem hj
      have hkept : storeRun t.capacity t.slots t.cached events
          (t.capacity.index (t.cached + (p - log.length))) = events[p - log.length] :=
        storeRun_at hat (by omega)
      rw [show t.cached + (p - log.length) = p by omega] at hkept
      rw [hkept]
      exact hfits _ e _ he hat

theorem fits_events {events : List Event} {j : ℕ} {e : Entry} {x : Event}
    (he : (events.map Entry.event)[j]? = some e) (hx : events[j]? = some x) : e.Fits x := by
  rw [List.getElem?_map, hx] at he
  obtain rfl := Option.some.inj he
  rfl

end Logged

/-- The store in flight, as thread and ghost agree on it. -/
def Held (w : PreWrite) (after : Memory) (t : Thread) (g : Ghost) : Prop :=
  (g.inFlight = none ∧ t.scratch1 = none) ∨
    ∃ f, g.inFlight = some f ∧ f.w = w ∧ f.after = after ∧
      t.scratch1 = some (t.capacity.index t.cached) ∧ t.scratch0 = w.ea ∧ t.nesting = true ∧
      ∃ value, t.slots (t.capacity.index t.cached) = { f.header with value := value } ∧
        ∀ v, w.imm = some v → value = v ∧ w.size ≤ 8 ∧
          v &&& sizeMask w.size = wordAt after w.ea 8 &&& sizeMask w.size

def Mode.Holds (t : Thread) (g : Ghost) : Mode → Prop
  | .clear => g.inFlight = none
  | .armed w effect =>
      (w.imm = none → w.size ≤ 8 ∨ w.wide = true) ∧ (w.wide = true → 8 < w.size) ∧
        Held w (effect t.mem) t g
  | .stored w =>
      (w.imm = none → w.size ≤ 8 ∨ w.wide = true) ∧ (w.wide = true → 8 < w.size) ∧
        Held w t.mem t g

/-- Positions whose slot the thread has begun to fill. -/
def frontier (t : Thread) (g : Ghost) : ℕ := t.cached + (if g.inFlight.isSome then 1 else 0)

/-- A pushed event is no store, and a READ was recorded by `at_mem_read_buf`. -/
def Sourced (reads : List ReadEntry) (e : Event) : Prop :=
  e.kind ≠ EVENT_WRITE ∧ (e.kind = EVENT_READ →
    ∃ r ∈ reads, e.addr = r.addr ∧ e.size = r.size ∧ e.value = r.value)

structure Inv (m : Mode) (t : Thread) (g : Ghost) : Prop where
  logged : Logged (frontier t g) t g.log
  mode : m.Holds t g
  buffered : ∀ r ∈ t.rdbuf, r ∈ g.reads
  sourced : ∀ e, .event e ∈ g.log → Sourced g.reads e

section Pushes
variable {t : Thread} {env : Env} {pushes : Thread → List Thread.Push}

theorem mem_admitted {capacity head : ℕ} {seq : UInt32} {n : ℕ} {ps : List Thread.Push} {op : Op}
    (h : op ∈ Thread.admitted env capacity head seq n ps) : ∃ p ∈ ps, ∃ q, op = p.op q := by
  induction ps generalizing head seq n with
  | nil => simp [Thread.admitted] at h
  | cons p ps ih =>
      simp only [Thread.admitted] at h
      split at h
      · obtain ⟨p', hp', hop⟩ := ih h
        exact ⟨p', by simp [hp'], hop⟩
      · rcases List.mem_cons.mp h with rfl | h
        · exact ⟨p, by simp, seq, rfl⟩
        · obtain ⟨p', hp', hop⟩ := ih h
          exact ⟨p', by simp [hp'], hop⟩

theorem length_admitted_le (capacity head : ℕ) (seq : UInt32) (n : ℕ)
    (ps : List Thread.Push) :
    (Thread.admitted env capacity head seq n ps).length ≤ ps.length := by
  induction ps generalizing head seq n with
  | nil => exact Nat.le_refl 0
  | cons p ps ih =>
      simp only [Thread.admitted]
      split
      · exact (ih _ _ _).trans (Nat.le_succ _)
      · exact Nat.succ_le_succ (ih _ _ _)

/-- The operations of pushes that are all admitted. -/
def operations (seq : UInt32) : List Thread.Push → List Op
  | [] => []
  | p :: ps => p.op seq :: operations (seq + 1) ps

theorem admitted_eq_operations {capacity head : ℕ} {seq : UInt32} {n : ℕ} {ps : List Thread.Push}
    (h : (Thread.admitted env capacity head seq n ps).length = ps.length) :
    Thread.admitted env capacity head seq n ps = operations seq ps := by
  induction ps generalizing head seq n with
  | nil => rfl
  | cons p ps ih =>
      simp only [Thread.admitted] at h ⊢
      split at h
      · have hle := h ▸ length_admitted_le capacity head (seq + 1) (n + 1) ps
        rw [List.length_cons] at hle
        omega
      · rename_i hpass
        rw [if_neg hpass, operations, ih (Nat.succ.inj h)]

theorem operations_append (seq : UInt32) (ps qs : List Thread.Push) : ∃ seq',
    operations seq (ps ++ qs) = operations seq ps ++ operations seq' qs := by
  induction ps generalizing seq with
  | nil => exact ⟨seq, rfl⟩
  | cons p ps ih =>
      obtain ⟨seq', h⟩ := ih (seq + 1)
      exact ⟨seq', by rw [List.cons_append, operations, operations, h, List.cons_append]⟩

theorem mem_operations {seq : UInt32} {ps : List Thread.Push} {op : Op}
    (h : op ∈ operations seq ps) : ∃ p ∈ ps, ∃ q, op = p.op q := by
  induction ps generalizing seq with
  | nil => cases h
  | cons p ps ih =>
      rcases List.mem_cons.mp h with rfl | h
      · exact ⟨p, List.mem_cons_self, seq, rfl⟩
      · obtain ⟨p', hp', q, hop⟩ := ih h
        exact ⟨p', List.mem_cons_of_mem _ hp', q, hop⟩

theorem mem_pushed {e : Event} (h : e ∈ pushed pushes env t) :
    ∃ p ∈ pushes t, ∃ q, e ∈ (p.op q).slots := by
  unfold pushed at h
  split at h
  · simp at h
  · obtain ⟨op, hop, he⟩ := List.mem_flatMap.mp h
    obtain ⟨p, hp, q, rfl⟩ := mem_admitted hop
    exact ⟨p, hp, q, he⟩

/-- The pushes of a clean call, as one advance from the cached head. -/
theorem push_eq (pushes : Thread → List Thread.Push) (env : Env) (hmapped : t.mapped = true) :
    ∃ seq, ((t.flushHeadCache env).pushAll env 0 (pushes t)).syncHeadCache env =
      let events :=
        (Thread.admitted env t.capacity.size t.cached t.tlsSeq 0 (pushes t)).flatMap Op.slots
      { t with
        slots := storeRun t.capacity t.slots t.cached events
        head := t.cached + events.length
        cached := t.cached + events.length
        tlsSeq := seq
        bp := env.tier } := by
  have hflush : t.flushHeadCache env = { t with head := t.cached, bp := env.tier } := by
    rw [Thread.flushHeadCache, if_pos hmapped]
  obtain ⟨seq, h⟩ := Thread.pushAll_eq env 0 (pushes t) (t.flushHeadCache env)
  refine ⟨seq, ?_⟩
  rw [h, hflush]
  simp only [Thread.syncHeadCache, hmapped, if_true]

/-- A clean call does nothing or advances over what it pushes. -/
theorem cleanCall_cases (pushes : Thread → List Thread.Push) (env : Env) (t : Thread) :
    (pushed pushes env t = [] ∧ t.cleanCall pushes env = t) ∨
      ∃ seq, t.cleanCall pushes env = { t with
        slots := storeRun t.capacity t.slots t.cached (pushed pushes env t)
        head := t.cached + (pushed pushes env t).length
        cached := t.cached + (pushed pushes env t).length
        tlsSeq := seq
        bp := env.tier } := by
  unfold Thread.cleanCall pushed
  by_cases hboot : env.phase = .boot
  · simp [hboot]
  · by_cases hguard : t.guard = true
    · simp [hguard]
    · by_cases hmapped : t.mapped = true
      · obtain ⟨seq, h⟩ := push_eq pushes env hmapped
        right
        refine ⟨seq, ?_⟩
        have hunmapped : ¬(!t.mapped) = true := by simp [hmapped]
        have hopen : ¬(env.phase = .boot ∨ t.guard = true ∨ (!t.mapped) = true) := by
          simp [hboot, hguard, hmapped]
        rw [if_neg hboot, if_neg hguard, if_neg hunmapped, if_neg hopen]
        exact h
      · simp [hmapped]

theorem flushReadBuf_cases (env : Env) (t : Thread) :
    (pushed Thread.readPushes env t = [] ∧
      (t.flushReadBuf env = t ∨ t.flushReadBuf env = { t with rdbuf := [] })) ∨
      ∃ seq, t.flushReadBuf env = { t with
        slots := storeRun t.capacity t.slots t.cached (pushed Thread.readPushes env t)
        head := t.cached + (pushed Thread.readPushes env t).length
        cached := t.cached + (pushed Thread.readPushes env t).length
        tlsSeq := seq
        bp := env.tier
        rdbuf := [] } := by
  unfold Thread.flushReadBuf pushed
  by_cases hboot : env.phase = .boot
  · simp [hboot]
  · by_cases hguard : t.guard = true
    · simp [hguard]
    · by_cases hempty : t.rdbuf = []
      · simp [hempty, Thread.readPushes, Thread.admitted]
      · by_cases hmapped : t.mapped = true
        · obtain ⟨seq, h⟩ := push_eq Thread.readPushes env hmapped
          right
          refine ⟨seq, ?_⟩
          have hunmapped : ¬(!t.mapped) = true := by simp [hmapped]
          have hopen : ¬(env.phase = .boot ∨ t.guard = true ∨ (!t.mapped) = true) := by
            simp [hboot, hguard, hmapped]
          rw [if_neg hboot, if_neg hguard, if_neg hempty, if_neg hunmapped, if_neg hopen, h]
        · left
          have hunmapped : (!t.mapped) = true := by simp [hmapped]
          refine ⟨if_pos (.inr (.inr hunmapped)), .inr ?_⟩
          rw [if_neg hboot, if_neg hguard, if_neg hempty, if_pos hunmapped]

theorem kind_pushExFlags {addr value : UInt64} {size : UInt32} {kind flags : UInt8} {tid : UInt16}
    {seq : UInt32} {e : Event} (he : e ∈ (Op.pushExFlags addr size value kind flags tid seq).slots) :
    e.kind = kind := by
  obtain rfl := List.mem_singleton.mp he
  exact kind_makeKf _ _ _

theorem Sourced.of_kind {reads : List ReadEntry} {e : Event} {kind : UInt8} (h : e.kind = kind)
    (hwrite : kind ≠ EVENT_WRITE) (hread : kind ≠ EVENT_READ) : Sourced reads e := by
  rw [Sourced, h]
  exact ⟨hwrite, fun hkind => absurd hkind hread⟩

theorem sourced_callPushes {callee frameBase : UInt64} {reads : List ReadEntry} {e : Event}
    (he : e ∈ pushed (Thread.callPushes callee frameBase env) env t) : Sourced reads e := by
  obtain ⟨p, hp, q, hslot⟩ := mem_pushed he
  simp only [Thread.callPushes, List.mem_append, List.mem_map, List.mem_singleton] at hp
  rcases hp with (⟨base, -, rfl⟩ | rfl) | ⟨regs, -, rfl⟩
  · exact .of_kind (kind_pushExFlags hslot) (by decide) (by decide)
  · exact .of_kind (kind_pushExFlags hslot) (by decide) (by decide)
  · exact .of_kind (Op.kind_of_snapshot rfl hslot) (by decide) (by decide)

/-- A clean call with a single push of another kind. -/
theorem sourced_single {reads : List ReadEntry} {e : Event} {p : Thread.Push} {kind : UInt8}
    (he : e ∈ pushed pushes env t) (hpushes : pushes t = [p])
    (hkind : ∀ q, ∀ x ∈ (p.op q).slots, x.kind = kind) (hwrite : kind ≠ EVENT_WRITE)
    (hread : kind ≠ EVENT_READ) : Sourced reads e := by
  obtain ⟨p', hp, q, hslot⟩ := mem_pushed he
  rw [hpushes] at hp
  obtain rfl := List.mem_singleton.mp hp
  exact .of_kind (hkind q e hslot) hwrite hread

theorem sourced_readPushes {reads : List ReadEntry} {e : Event} (hbuf : ∀ r ∈ t.rdbuf, r ∈ reads)
    (he : e ∈ pushed Thread.readPushes env t) : Sourced reads e := by
  obtain ⟨p, hp, q, hslot⟩ := mem_pushed he
  obtain ⟨r, hr, rfl⟩ := List.mem_map.mp hp
  have hkind := kind_pushExFlags hslot
  obtain rfl := List.mem_singleton.mp hslot
  constructor
  · rw [hkind]
    decide
  · exact fun _ => ⟨r, hbuf r hr, rfl, rfl, rfl⟩

end Pushes

section Post
variable {t : Thread} {f : Flight} {value : UInt64}

/-- The slots that the second half of a store completes. -/
def postEvents (f : Flight) (t : Thread) (value : UInt64) : List Event :=
  { f.header with value := if f.w.imm.isSome then value else readMem t.mem f.w.ea 8 } ::
    (if f.w.imm.isSome || !f.w.wide then []
     else (List.range (totalSlots f.w.size - 1)).map
      (continuation f.w.ea f.w.size f.tid (Thread.chunk t.mem f.w.ea f.w.size)))

theorem captureValue_eq (hs1 : t.scratch1 = some (t.capacity.index t.cached))
    (hs0 : t.scratch0 = f.w.ea)
    (hslot : t.slots (t.capacity.index t.cached) = { f.header with value := value })
    (hsize : f.w.imm = none → f.w.size ≤ 8 ∨ f.w.wide = true) :
    ∃ truncated, t.captureValue f.w.post (t.capacity.index t.cached) = { t with
      slots := storeRun t.capacity t.slots t.cached (postEvents f t value)
      cached := t.cached + ((postEvents f t value).length - 1)
      truncatedWrites := truncated } := by
  cases himm : f.w.imm with
  | some v =>
      refine ⟨t.truncatedWrites, ?_⟩
      simp only [Thread.captureValue, PreWrite.post, postEvents, himm, Option.isSome_some,
        Bool.not_true, Bool.false_and, Bool.false_eq_true, if_false, if_true, Bool.true_or,
        storeRun, ← hslot, Function.update_eq_self, List.length_singleton, Nat.sub_self,
        Nat.add_zero]
  | none =>
      cases hwide : f.w.wide with
      | false =>
          have hle : f.w.size ≤ 8 := by simpa [hwide] using hsize himm
          refine ⟨t.truncatedWrites, ?_⟩
          simp [Thread.captureValue, PreWrite.post, postEvents, himm, hwide, hle, storeRun,
            Thread.setValue, hslot, hs0]
      | true =>
          simp only [Thread.captureValue, PreWrite.post, postEvents, himm, hwide, hs0, hs1, hslot,
            Thread.setValue, Thread.compoundFillContinuations, Option.isSome_none, Bool.not_false,
            Bool.true_and, Bool.or_true, if_true, Bool.false_eq_true, if_false, Bool.not_true,
            Bool.or_false, storeRun, Function.update_self]
          split
          · refine ⟨t.truncatedWrites, ?_⟩
            rename_i hone
            simp [show totalSlots f.w.size - 1 = 0 by omega, storeRun]
          · refine ⟨t.truncatedWrites + 1, ?_⟩
            simp only [storeRun_index, List.length_cons, List.length_map, List.length_range,
              Nat.add_sub_cancel]
            rfl

theorem emitPostWrite_eq (hs1 : t.scratch1 = some (t.capacity.index t.cached))
    (hs0 : t.scratch0 = f.w.ea)
    (hslot : t.slots (t.capacity.index t.cached) = { f.header with value := value })
    (hsize : f.w.imm = none → f.w.size ≤ 8 ∨ f.w.wide = true) :
    ∃ head truncated, (head = t.head ∨ head = t.cached + (postEvents f t value).length) ∧
      t.emitPostWrite f.w.post = { t with
        slots := storeRun t.capacity t.slots t.cached (postEvents f t value)
        cached := t.cached + (postEvents f t value).length
        head := head
        seq := t.seq + 1
        nesting := false
        inlineWrites := t.inlineWrites + 1
        truncatedWrites := truncated } := by
  obtain ⟨truncated, h⟩ := captureValue_eq hs1 hs0 hslot hsize
  have hcached : t.cached + ((postEvents f t value).length - 1) + 1 =
      t.cached + (postEvents f t value).length := by
    have hlen : 0 < (postEvents f t value).length := by simp [postEvents]
    omega
  refine ⟨if (t.cached + (postEvents f t value).length) &&& HEAD_FLUSH_MASK = 0 then
    t.cached + (postEvents f t value).length else t.head, truncated, ?_, ?_⟩
  · split
    · exact .inr rfl
    · exact .inl rfl
  · simp only [Thread.emitPostWrite, hs1, h, Thread.bumpHead, hcached]

end Post

namespace Inv
variable {m : Mode} {t t' : Thread} {g : Ghost} {env : Env}

/-- Nothing is in flight and the thread advances over what it stored for it. -/
theorem advance (h : Inv m t g) {events : List Event} (hnone : g.inFlight = none)
    (hsourced : ∀ e ∈ events, Sourced g.reads e) (hcap : t'.capacity = t.capacity)
    (hslots : t'.slots = storeRun t.capacity t.slots t.cached events)
    (hcached : t'.cached = t.cached + events.length) (hhead : t'.head ≤ t'.cached)
    (hscratch : t'.scratch1 = t.scratch1) (hrdbuf : ∀ r ∈ t'.rdbuf, r ∈ t.rdbuf) :
    Inv m t' (g.push events) where
  logged := by
    have hfront : frontier t g ≤ t.cached + events.length := by
      simp [frontier, hnone]
    have hlogged : Logged t'.cached t' (g.log ++ events.map .event) :=
      h.logged.append (by simp) (fun _ _ _ => fits_events) hfront hcap hslots hcached hhead
    rwa [show frontier t' (g.push events) = t'.cached by simp [frontier, Ghost.push, hnone]]
  mode := by
    have hheld {w : PreWrite} {after after' : Memory} (hw : Held w after t g) :
        Held w after' t' (g.push events) := by
      rcases hw with ⟨-, hs⟩ | ⟨f, hf, -⟩
      · exact .inl ⟨hnone, hscratch.trans hs⟩
      · cases hnone.symm.trans hf
    have hmode := h.mode
    cases m with
    | clear => exact hnone
    | armed w effect => exact ⟨hmode.1, hmode.2.1, hheld hmode.2.2⟩
    | stored w => exact ⟨hmode.1, hmode.2.1, hheld hmode.2.2⟩
  buffered := fun r hr => h.buffered r (hrdbuf r hr)
  sourced := by
    intro e he
    rcases List.mem_append.mp he with he | he
    · exact h.sourced e he
    · obtain ⟨x, hx, hxe⟩ := List.mem_map.mp he
      cases hxe
      exact hsourced e hx

/-- A step that leaves ring and buffer alone while nothing is in flight. -/
theorem keep (h : Inv m t g) (hnone : g.inFlight = none) (hcap : t'.capacity = t.capacity)
    (hslots : t'.slots = t.slots) (hcached : t'.cached = t.cached) (hhead : t'.head ≤ t'.cached)
    (hscratch : t'.scratch1 = t.scratch1) (hrdbuf : ∀ r ∈ t'.rdbuf, r ∈ t.rdbuf) :
    Inv m t' g := by
  have hpush : g.push [] = g := by simp [Ghost.push]
  rw [← hpush]
  exact h.advance hnone (by simp) hcap hslots hcached hhead hscratch hrdbuf

theorem cleanCall (h : Inv m t g) (hnone : g.inFlight = none) {pushes : Thread → List Thread.Push}
    (hsourced : ∀ e ∈ pushed pushes env t, Sourced g.reads e) :
    Inv m (t.cleanCall pushes env) (g.push (pushed pushes env t)) := by
  rcases cleanCall_cases pushes env t with ⟨hpushed, hkeep⟩ | ⟨seq, hcall⟩
  · rw [hkeep]
    exact h.advance hnone hsourced rfl (by rw [hpushed]; rfl) (by rw [hpushed]; rfl)
      h.logged.head_le rfl (fun _ hr => hr)
  · rw [hcall]
    exact h.advance hnone hsourced rfl rfl rfl le_rfl rfl (fun _ hr => hr)

theorem flushReadBuf (h : Inv m t g) (hnone : g.inFlight = none) :
    Inv m (t.flushReadBuf env) (g.push (pushed Thread.readPushes env t)) := by
  have hsourced : ∀ e ∈ pushed Thread.readPushes env t, Sourced g.reads e :=
    fun e he => sourced_readPushes h.buffered he
  rcases flushReadBuf_cases env t with ⟨hpushed, hkeep⟩ | ⟨seq, hflush⟩
  · rw [hpushed] at hsourced ⊢
    rcases hkeep with hkeep | hkeep <;> rw [hkeep]
    · exact h.advance hnone hsourced rfl rfl rfl h.logged.head_le rfl (fun _ hr => hr)
    · exact h.advance hnone hsourced rfl rfl rfl h.logged.head_le rfl (by simp)
  · rw [hflush]
    exact h.advance hnone hsourced rfl rfl rfl le_rfl rfl (by simp)

theorem emitBbEntry (h : Inv .clear t g) (pc : UInt64) (rip : UInt32) :
    Inv .clear (t.emitBbEntry pc rip env) (g.next env t (.emitBbEntry pc rip)) := by
  have hkeep (t' : Thread) (ht : t.emitBbEntry pc rip env = t') (hcached : t'.cached = t.cached)
      (hinv : Inv .clear t' g) :
      Inv .clear (t.emitBbEntry pc rip env) (g.next env t (.emitBbEntry pc rip)) := by
    simpa [Ghost.next, ht, hcached, Ghost.push] using hinv
  by_cases hphase : env.phase = .trace
  · by_cases hmapped : t.mapped = true
    · by_cases hbp : t.bp = 0
      · have heq : t.emitBbEntry pc rip env = ({ t with
            slots := storeRun t.capacity t.slots t.cached [(Op.bbEntry pc t.tid t.seq rip).slot 0]
            seq := t.seq + 1 } : Thread).bumpHead := by
          simp [Thread.emitBbEntry, hphase, hmapped, hbp, storeRun]
        have hkind : ((Op.bbEntry pc t.tid t.seq rip).slot 0).kind = EVENT_BB_ENTRY :=
          kind_makeKf _ _ _
        simp only [Ghost.next, heq, Thread.bumpHead, Nat.add_sub_cancel_left, List.replicate_one]
        refine h.advance h.mode ?_ rfl rfl rfl ?_ rfl (fun _ hr => hr)
        · intro e he
          obtain rfl := List.mem_singleton.mp he
          exact .of_kind hkind (by decide) (by decide)
        · dsimp only
          split
          · exact le_rfl
          · exact h.logged.head_le.trans (Nat.le_succ _)
      · exact hkeep { t with shedBb := t.shedBb + 1 }
          (by simp [Thread.emitBbEntry, hphase, hmapped, hbp]) rfl
          (h.keep h.mode rfl rfl rfl h.logged.head_le rfl (fun _ hr => hr))
    · exact hkeep t (by simp [Thread.emitBbEntry, hphase, hmapped]) rfl h
  · exact hkeep t (by simp [Thread.emitBbEntry, hphase]) rfl h

theorem emitPreWrite (h : Inv .clear t g) {w : PreWrite} {effect : Memory → Memory}
    (hcap : w.Captured effect) (hwide : w.wide = true → 8 < w.size) :
    Inv (.armed w effect) (t.emitPreWrite w env) (g.next env t (.emitPreWrite w effect)) := by
  have himm : w.imm = none → w.size ≤ 8 ∨ w.wide = true := by
    intro hnone
    simpa [PreWrite.Captured, hnone] using hcap
  have hclear : g.inFlight = none := h.mode
  simp only [Ghost.next]
  rcases t.emitPreWrite_cases w env with ⟨scratch0, drops, shed, heq⟩ | heq
  · rw [heq]
    have hkept : Inv .clear { t with
        scratch0 := scratch0
        scratch1 := none
        reentrantDrops := drops
        shedWrites := shed } { g with inFlight := none } := by
      refine ⟨?_, rfl, h.buffered, h.sourced⟩
      have hlogged := h.logged
      simp only [frontier, hclear] at hlogged
      exact hlogged.congr rfl rfl rfl hlogged.head_le
    exact ⟨hkept.logged, ⟨himm, hwide, .inl ⟨rfl, rfl⟩⟩, h.buffered, h.sourced⟩
  · rw [heq]
    constructor
    · refine ⟨h.logged.cached, h.logged.head_le, ?_⟩
      intro p e he hlap
      have hp : p < t.cached := by
        rw [h.logged.cached]
        exact (List.getElem?_eq_some_iff.mp he).choose
      simp only [frontier, Option.map_some, Option.isSome_some, if_true] at hlap
      dsimp only
      rw [Function.update_of_ne (Capacity.index_ne hp (by omega))]
      refine h.logged.fits p e he ?_
      simp only [frontier, hclear, Option.isSome_none, Bool.false_eq_true, if_false]
      omega
    · refine ⟨himm, hwide, .inr ⟨⟨w, t.tid, t.seq, effect t.mem⟩, rfl, rfl, rfl, rfl, rfl, rfl,
        w.imm.getD (t.slots (t.capacity.index t.cached)).value, ?_, ?_⟩⟩
      · exact Function.update_self ..
      · intro v hv
        simp only [PreWrite.Captured, hv] at hcap
        exact ⟨by rw [hv]; rfl, hcap.1, hcap.2 t.mem⟩
    · exact h.buffered
    · exact h.sourced

theorem store {w : PreWrite} {effect : Memory → Memory} (h : Inv (.armed w effect) t g) :
    Inv (.stored w) { t with mem := effect t.mem } g :=
  ⟨h.logged.congr rfl rfl rfl h.logged.head_le, h.mode, h.buffered, h.sourced⟩

theorem atMemReadBuf (h : Inv m t g) (addr : UInt64) (size : UInt32) :
    Inv m (t.atMemReadBuf addr size env) (g.next env t (.atMemReadBuf addr size)) where
  logged := h.logged.congr rfl rfl rfl h.logged.head_le
  mode := by
    have hmode := h.mode
    cases m <;> exact hmode
  buffered := by
    intro r hr
    rcases List.mem_append.mp hr with hr | hr
    · exact List.mem_append_left _ (h.buffered r hr)
    · exact List.mem_append_right _ hr
  sourced := by
    intro e he
    obtain ⟨hwrite, hread⟩ := h.sourced e he
    refine ⟨hwrite, fun hkind => ?_⟩
    obtain ⟨r, hr, hfields⟩ := hread hkind
    exact ⟨r, List.mem_append_left _ hr, hfields⟩

/-- A re-read shows the bytes of the store. -/
theorem masked_readMem {mem : Memory} {a mask : UInt64}
    (h : Readable mem a 8 ∨ wordAt mem a 8 &&& mask = 0) :
    readMem mem a 8 &&& mask = wordAt mem a 8 &&& mask := by
  by_cases hread : Readable mem a 8
  · rw [readMem, if_pos hread]
  · rw [readMem, if_neg hread, h.resolve_left hread, UInt64.zero_and]

/-- The second half completes the slot of its own first half. -/
theorem emitPostWrite {w : PreWrite} {after : Memory} (h : Inv m t g) (hheld : Held w after t g)
    (hsize : w.imm = none → w.size ≤ 8 ∨ w.wide = true)
    (hmem : w.imm = none → t.mem = after) (hback : ReadsBack w.post t) :
    Inv .clear (t.emitPostWrite w.post) (g.next env t (.emitPostWrite w.post)) := by
  rcases hheld with ⟨hnone, hs1⟩ | ⟨f, hf, rfl, rfl, hs1, hs0, -, value, hslot, hvalue⟩
  · have heq : t.emitPostWrite w.post = { t with nesting := false } := by
      simp only [Thread.emitPostWrite, hs1]
    simp only [Ghost.next, hnone, heq]
    exact ⟨h.logged.congr rfl rfl rfl h.logged.head_le, hnone, h.buffered, h.sourced⟩
  · obtain ⟨head, truncated, hhead, heq⟩ := emitPostWrite_eq hs1 hs0 hslot hsize
    have hlen : 0 < (postEvents f t value).length := by simp [postEvents]
    have hcached : (t.emitPostWrite f.w.post).cached =
        t.cached + (postEvents f t value).length := by rw [heq]
    simp only [Ghost.next, hf]
    constructor
    · have hfront : frontier t g ≤ t.cached + (postEvents f t value).length := by
        simp only [frontier, hf, Option.isSome_some, if_true]
        omega
      refine h.logged.append ?_ ?_ hfront (by rw [heq]) (by rw [heq]) hcached ?_
      · rw [List.length_map, List.length_range, hcached, Nat.add_sub_cancel_left]
      · intro j e x he hx
        rw [List.getElem?_map] at he
        obtain ⟨k, hk, rfl⟩ := Option.map_eq_some_iff.mp he
        obtain ⟨-, rfl⟩ := List.getElem?_eq_some_iff.mp hk
        rw [List.getElem_range]
        cases j with
        | zero =>
            obtain rfl := Option.some.inj hx
            refine ⟨rfl, ?_⟩
            cases himm : f.w.imm with
            | some v =>
                obtain ⟨rfl, -, hmask⟩ := hvalue v himm
                simpa [himm] using hmask
            | none =>
                simp only [Option.isSome_none, Bool.false_eq_true, if_false]
                rw [← hmem himm, ← hs0]
                have hseen := (hback (by rw [PreWrite.post, himm]; rfl) (by rw [hs1]; simp)).1
                exact masked_readMem hseen
        | succ j =>
            simp only [postEvents, List.getElem?_cons_succ] at hx
            split at hx
            · simp at hx
            · rename_i hwide
              simp only [Bool.or_eq_true, Bool.not_eq_true', not_or, Bool.not_eq_true,
                Option.isSome_eq_false_iff, Option.isNone_iff_eq_none] at hwide
              rw [List.getElem?_map] at hx
              obtain ⟨k, hk, rfl⟩ := Option.map_eq_some_iff.mp hx
              obtain ⟨hj, rfl⟩ := List.getElem?_eq_some_iff.mp hk
              rw [List.length_range] at hj
              have hchunk : Readable t.mem (chunkAddr t.scratch0 j) (chunkSize f.w.size j) :=
                (hback (by rw [PreWrite.post, hwide.1]; rfl) (by rw [hs1]; simp)).2
                  (by simpa [PreWrite.post] using hwide.2) j hj
              rw [List.getElem_range, Entry.Fits, ← hmem hwide.1, continuation, continuation,
                Thread.chunk, storedChunk, ← hs0, readMem, if_pos hchunk]
      · have hle := h.logged.head_le
        rw [heq]
        dsimp only
        omega
    · rfl
    · rw [heq]
      exact h.buffered
    · intro e he
      rcases List.mem_append.mp he with he | he
      · exact h.sourced e he
      · obtain ⟨k, -, hk⟩ := List.mem_map.mp he
        cases hk

/-- A store in flight holds the nesting guard. -/
theorem nesting (h : Inv m t g) : g.inFlight = none ∨ t.nesting = true := by
  have hheld {w : PreWrite} {after : Memory} (hw : Held w after t g) :
      g.inFlight = none ∨ t.nesting = true := by
    rcases hw with ⟨hnone, -⟩ | ⟨f, -, -, -, -, -, hnesting, -⟩
    · exact .inl hnone
    · exact .inr hnesting
  have hmode := h.mode
  cases m with
  | clear => exact .inl hmode
  | armed w effect => exact hheld hmode.2.2
  | stored w => exact hheld hmode.2.2

theorem flushReadBufIfNeeded (h : Inv m t g) {needed : ℕ}
    (hroom : t.nesting = true → t.rdbuf.length + needed ≤ RDBUF_CAP) :
    Inv m (t.flushReadBufIfNeeded needed env) (g.next env t (.flushReadBufIfNeeded needed)) := by
  by_cases hfit : t.rdbuf.length + needed ≤ RDBUF_CAP
  · simpa only [Thread.flushReadBufIfNeeded, Ghost.next, hfit, if_true, ite_self] using h
  · have hnone : g.inFlight = none := h.nesting.resolve_right (fun hn => hfit (hroom hn))
    have hflush : t.flushReadBufIfNeeded needed env = t.flushReadBuf env := by
      simp only [Thread.flushReadBufIfNeeded, hfit, if_false, Thread.flushReadBuf]
      split <;> rfl
    rw [hflush]
    simpa only [Ghost.next, hfit, if_false] using h.flushReadBuf hnone

theorem exec {a : Action} (h : Inv m t g) (ha : Allowed m a)
    (hroom : ∀ needed, a = .flushReadBufIfNeeded needed → t.nesting = true →
      t.rdbuf.length + needed ≤ RDBUF_CAP)
    (hback : ∀ p, a = .emitPostWrite p → ReadsBack p t) :
    Inv (m.next a) (exec env t a) (g.next env t a) := by
  cases ha with
  | entry => exact h.emitBbEntry _ _
  | pre hcap hwide => exact h.emitPreWrite hcap hwide
  | @postImm w effect himm =>
      obtain ⟨hsize, -, hheld⟩ := h.mode
      exact h.emitPostWrite hheld hsize (fun hnone => by simp [hnone] at himm) (hback _ rfl)
  | post =>
      obtain ⟨hsize, -, hheld⟩ := h.mode
      exact h.emitPostWrite hheld hsize (fun _ => rfl) (hback _ rfl)
  | call => exact h.cleanCall h.mode fun _ he => sourced_callPushes he
  | ret =>
      exact h.cleanCall h.mode fun _ he =>
        sourced_single he rfl (fun _ _ hx => kind_pushExFlags hx) (by decide) (by decide)
  | tailCall =>
      exact h.cleanCall h.mode fun _ he =>
        sourced_single he rfl (fun _ _ hx => kind_pushExFlags hx) (by decide) (by decide)
  | flushHead =>
      simp only [Tracer.exec, Thread.flushHeadCache]
      split
      · exact h.keep h.mode rfl rfl rfl le_rfl rfl (fun _ hr => hr)
      · exact h
  | reload =>
      exact h.cleanCall h.mode fun _ he =>
        sourced_single he rfl (fun _ _ hx => kind_pushExFlags hx) (by decide) (by decide)
  | @flushIfNeeded m needed =>
      cases m <;> exact h.flushReadBufIfNeeded (hroom needed rfl)
  | @read m addr size =>
      cases m <;> exact h.atMemReadBuf addr size
  | flushReads => exact h.flushReadBuf h.mode
  | app => exact h.keep h.mode rfl rfl rfl h.logged.head_le rfl (fun _ hr => hr)
  | store => exact h.store

end Inv

/-- What the thread and its ring guarantee at any point between two pieces of code:
a store in flight still owns the slot at the cached head, every position below the
cached head is accounted for, and every slot within a lap holds what was written
for its position. -/
structure SlotsFit (s : Running) : Prop where
  inFlight : ∀ f, s.ghost.inFlight = some f →
    s.thread.scratch1 = some (s.thread.capacity.index s.thread.cached) ∧
      ∃ value, s.thread.slots (s.thread.capacity.index s.thread.cached) =
        { f.header with value := value }
  published : s.thread.head ≤ s.thread.cached
  accounted : s.thread.cached = s.ghost.log.length
  slot : ∀ p entry, s.ghost.log[p]? = some entry →
    frontier s.thread s.ghost ≤ p + s.thread.capacity.size →
    let e := s.thread.slots (s.thread.capacity.index p)
    entry.Fits e ∧ (e.kind = EVENT_WRITE → ∃ f k, entry = .store f k) ∧
      (e.kind = EVENT_READ →
        ∃ r ∈ s.ghost.reads, e.addr = r.addr ∧ e.size = r.size ∧ e.value = r.value)

theorem Entry.Fits.kind {f : Flight} {k : ℕ} {e : Event} (h : (Entry.store f k).Fits e) :
    e.kind = EVENT_WRITE := by
  cases k with
  | zero =>
      rw [h.1]
      exact kind_makeKf _ _ _
  | succ k =>
      obtain rfl : e = _ := h
      exact kind_continuation ..

theorem Inv.slotsFit {m : Mode} {s : Running} (h : Inv m s.thread s.ghost) : SlotsFit s where
  inFlight := by
    intro f hf
    have hheld {w : PreWrite} {after : Memory} (hw : Held w after s.thread s.ghost) :
        s.thread.scratch1 = some (s.thread.capacity.index s.thread.cached) ∧
          ∃ value, s.thread.slots (s.thread.capacity.index s.thread.cached) =
            { f.header with value := value } := by
      rcases hw with ⟨hnone, -⟩ | ⟨f', hf', -, -, hs1, -, -, value, hslot, -⟩
      · cases hnone.symm.trans hf
      · obtain rfl := Option.some.inj (hf'.symm.trans hf)
        exact ⟨hs1, value, hslot⟩
    have hmode := h.mode
    cases m with
    | clear => cases hmode.symm.trans hf
    | armed w effect => exact hheld hmode.2.2
    | stored w => exact hheld hmode.2.2
  published := h.logged.head_le
  accounted := h.logged.cached
  slot := by
    intro p entry he hlap
    have hfits := h.logged.fits p entry he hlap
    refine ⟨hfits, ?_⟩
    cases entry with
    | store f k =>
        refine ⟨fun _ => ⟨f, k, rfl⟩, fun hkind => ?_⟩
        rw [hfits.kind] at hkind
        exact absurd hkind (by decide)
    | event x =>
        have hx : s.thread.slots (s.thread.capacity.index p) = x := hfits
        obtain ⟨hwrite, hread⟩ := h.sourced x (List.mem_of_getElem? he)
        rw [hx]
        exact ⟨fun hkind => absurd hkind hwrite, hread⟩

/-- What is left of the block can be run from where its store stands. -/
def Running.Good (s : Running) : Prop :=
  ∃ m, Follows m s.todo .clear ∧ Inv m s.thread s.ghost

theorem good_init (capacity : Capacity) (mapped : Bool) (tid : UInt16) (mem : Memory) :
    (Running.init capacity mapped tid mem).Good :=
  ⟨.clear, rfl, ⟨⟨rfl, le_rfl, by simp [Running.init]⟩, rfl,
    by simp [Running.init, Thread.start], by simp [Running.init]⟩⟩

theorem step_good {l : Label} {s s' : Running} (h : s.Good) (hroom : Room l s)
    (hstep : step l s = some s') : s'.Good := by
  obtain ⟨m, hfollows, hinv⟩ := h
  cases l with
  | enter block =>
      cases htodo : s.todo with
      | nil =>
          simp only [step, htodo, Option.some.injEq] at hstep
          subst hstep
          rw [htodo] at hfollows
          obtain rfl : m = .clear := hfollows
          exact ⟨.clear, eventBbInsert_follows hroom, hinv⟩
      | cons a rest => simp [step, htodo] at hstep
  | run env =>
      cases htodo : s.todo with
      | nil => simp [step, htodo] at hstep
      | cons a rest =>
          simp only [step, htodo, Option.some.injEq] at hstep
          subst hstep
          rw [htodo] at hfollows
          refine ⟨m.next a, hfollows.2, hinv.exec hfollows.1 ?_ ?_⟩
          · rintro needed rfl hnesting
            exact hroom.1 needed rest htodo hnesting
          · rintro p rfl
            exact hroom.2 p rest htodo

/-- In every run of instrumented blocks in which the read buffer has room for the
reads of an instruction whose store is in flight, and stored values are captured
where they end up and can be read there. -/
theorem slots_fit_with_room (capacity : Capacity) (mapped : Bool) (tid : UInt16) (mem : Memory)
    {s : Running} (h : Reach step Room (.init capacity mapped tid mem) s) : SlotsFit s := by
  have hgood : s.Good :=
    h.invariant (good_init capacity mapped tid mem) fun _ _ _ hu hok hs => step_good hu hok hs
  obtain ⟨m, -, hinv⟩ := hgood
  exact hinv.slotsFit

/-- An instruction of the main module that neither calls nor touches memory. -/
def Instr.plain : Instr where
  pc := 0x1000
  rip := 0x1000
  inMain := true
  entryOk := false
  callTo := none
  isReturn := false
  tailCallTo := none
  forceClean := false
  dsts := []
  srcs := []
  effect := id

/-- `mov byte [0x2000], reg` with 1 in the register. -/
def Instr.storesOne : Instr :=
  { Instr.plain with
    dsts := [.mem 1 0x2000 true]
    srcs := [.reg true]
    effect := fun m => Function.update m 0x2000 (some 1) }

theorem captured_storesOne : Captured [Instr.storesOne, .plain] := by
  refine ⟨?_, ?_, trivial⟩
  · intro w hw
    obtain rfl := Option.some.inj hw
    exact ⟨rfl, .inl (by decide)⟩
  · intro w hw
    cases hw

theorem store_slot_fits :
    ∃ s : Running, s.thread.head = 1 ∧ (s.thread.slots 0).value = 1 ∧ SlotsFit s := by
  have hroom {env : Env} {s : Running} {a : Action} {rest : List Action} (htodo : s.todo = a :: rest)
      (ha : ∀ needed, a ≠ .flushReadBufIfNeeded needed)
      (hback : ∀ p, a = .emitPostWrite p → ReadsBack p s.thread) : Room (.run env) s := by
    refine ⟨fun needed rest' h => ?_, fun p rest' h => ?_⟩
    · rw [htodo] at h
      exact absurd (List.cons.inj h).1 (ha needed)
    · rw [htodo] at h
      exact hback p (List.cons.inj h).1
  have henter : Reach step Room (.init THREAD_RING_CAPACITY true 7 fun _ => some 0) _ :=
    .next (l := .enter [.storesOne, .plain]) .start captured_storesOne rfl
  have hpre := henter.next (l := .run .plain) (hroom rfl (by simp) (by simp)) rfl
  have hstore := hpre.next (l := .run .plain) (hroom rfl (by simp) (by simp)) rfl
  have hpost := hstore.next (l := .run .plain) (hroom rfl (by simp) fun p hp => by
    obtain rfl := Action.emitPostWrite.inj hp
    exact fun _ _ => ⟨.inl (by decide +kernel), nofun⟩) rfl
  have hflush := hpost.next (l := .run .plain) (hroom rfl (by simp) (by simp)) rfl
  exact ⟨_, rfl, by decide +kernel, slots_fit_with_room _ _ _ _ hflush⟩

/-- A block that reads 16 times, stores to a word that it reads as well, and ends. -/
def rmwBlock : List Instr :=
  List.replicate 16 { Instr.plain with srcs := [.mem 8 0x3000 true] } ++
    [{ Instr.plain with
        dsts := [.mem 8 0x2000 true]
        srcs := [.mem 8 0x2000 true, .reg true]
        effect := fun m => Function.update m 0x2000 (some 1) }, .plain]

/-- The read buffer is full at the store: its flush takes the slot of the store in
flight, and the second half publishes a slot nobody wrote. -/
theorem flush_publishes_stale_slot :
    ∃ s, Reach step (fun _ _ => True) (.init THREAD_RING_CAPACITY true 7 fun _ => some 0) s ∧
      s.thread.cached = 17 ∧ (s.thread.slots 16).addr = 0 ∧ ¬ SlotsFit s := by
  have hrun : (Transition.exec step (.enter rmwBlock :: List.replicate 53 (.run .plain))
      (.init THREAD_RING_CAPACITY true 7 fun _ => some 0)).any (fun s =>
        s.thread.cached = 17 && s.thread.capacity.index 16 = 16 &&
        s.thread.capacity.size = 2 ^ 20 && (s.thread.slots 16).addr = 0 &&
        (s.ghost.log[16]?).any (fun | .store f 0 => f.w.ea = 0x2000 | _ => false)) = true := by
    decide +kernel
  obtain ⟨s, hs, hfacts⟩ := (Option.any_eq_true _ _).mp hrun
  simp only [Bool.and_eq_true, decide_eq_true_eq] at hfacts
  obtain ⟨⟨⟨⟨hcached, hindex⟩, hsize⟩, hzero⟩, hstore⟩ := hfacts
  refine ⟨s, Reach.of_exec hs fun _ _ _ => trivial, hcached, hzero, fun hfit => ?_⟩
  obtain ⟨entry, hentry, hkind⟩ := (Option.any_eq_true _ _).mp hstore
  have hlap : frontier s.thread s.ghost ≤ 16 + s.thread.capacity.size := by
    rw [frontier, hcached, hsize]
    split <;> omega
  obtain ⟨hfits, -⟩ := hfit.slot 16 entry hentry hlap
  rw [hindex] at hfits
  split at hkind
  · rename_i f
    have haddr : (s.thread.slots 16).addr = f.w.ea := by
      rw [hfits.1]
      rfl
    rw [hzero, of_decide_eq_true hkind] at haddr
    exact absurd haddr (by decide)
  · cases hkind

end Rtmap.Tracer
