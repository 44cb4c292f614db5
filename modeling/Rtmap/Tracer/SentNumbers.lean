import Rtmap.Engine.SeqGaps
import Rtmap.Tracer.Backpressure

/-!
# Numbers of a thread's events

Inline code numbers only what it stores, a clean call numbers every push it attempts. What
the engine takes for lost is what the ring refused, never what backpressure shed inline.
-/
namespace Rtmap.Tracer
open Rtmap.Ring Rtmap.Engine Rtmap.Streams

namespace Thread

/-- The pushes of a clean call that its gates let through. -/
def gated (pushes : Thread → List Push) (env : Env) (t : Thread) : List Push :=
  if env.phase = .boot ∨ t.guard ∨ !t.mapped then [] else pushes t

/-- A wrapper of an allocator asks only for the ring. -/
def wrapperPushes (pushes : List Push) (t : Thread) : List Push :=
  if !t.mapped then [] else pushes

/-- Which pushes of a clean call find room, from the `i`-th on. -/
def found (env : Env) (capacity head : ℕ) (seq : UInt32) : ℕ → List Push → List Bool
  | _, [] => []
  | i, p :: ps =>
      let op := p.op seq
      if (p.sampled && env.pressure i ≠ 0) || !op.admits capacity head (env.tail i) then
        false :: found env capacity head (seq + 1) (i + 1) ps
      else true :: found env capacity (head + op.slots.length) (seq + 1) (i + 1) ps

end Thread

/-- The pushes that a clean call attempts. -/
def CleanCall.attempts : CleanCall → Env → Thread → List Thread.Push
  | .atCall callee frameBase, env, t => Thread.gated (Thread.callPushes callee frameBase env) env t
  | .atReturn retaddr, env, t => Thread.gated (Thread.returnPushes retaddr) env t
  | .atTailCall target frameBase, env, t =>
      Thread.gated (Thread.tailCallPushes target frameBase) env t
  | .atReload src size reg, env, t => Thread.gated (Thread.reloadPushes src size reg) env t
  | .flushReadBuf, env, t => Thread.gated Thread.readPushes env t
  | .wrapMallocPost ret size caller, _, t | .wrapReallocPost ret size caller, _, t =>
      if ret = 0 then [] else t.wrapperPushes (Thread.allocPushes ret size caller t)
  | .wrapReallocPre ptr, _, t | .wrapFreePre ptr, _, t =>
      if ptr = 0 then [] else t.wrapperPushes (Thread.freePushes ptr t)

namespace Producer
variable (s : Producing)

def attempts : Producer → List Thread.Push
  | .call c env => c.attempts { env with phase := s.phase } s.thread
  | .syscall c _ => if s.phase = .boot then [] else s.thread.wrapperPushes (c.pushes s.thread)
  | _ => []

/-- What the engine and other threads decide during an emission. -/
def env : Producer → Env
  | .call _ env | .syscall _ env => { env with phase := s.phase }
  | _ => .plain

def admitted (p : Producer) : List Op :=
  Thread.admitted (p.env s) s.thread.capacity.size s.thread.cached s.thread.tlsSeq 0 (p.attempts s)

/-- Which of its pushes find room. -/
def found (p : Producer) : List Bool :=
  Thread.found (p.env s) s.thread.capacity.size s.thread.cached s.thread.tlsSeq 0 (p.attempts s)

/-- What a batch should not cut of its events. -/
def units (p : Producer) : List (List Event) :=
  if p.isInline then (p.events s).map fun e => [e] else (p.admitted s).flatMap Engine.units

/-- Inline code numbers a store or a block that it does not shed. -/
def numbered (p : Producer) : ℕ := if p.isInline && !(p.events s).isEmpty then 1 else 0

/-- A reload names one of the registers in its flags. -/
def NamesRegister : Producer → Prop
  | .call (.atReload _ _ reg) _ => reg < 16
  | _ => True

end Producer

namespace Producing

/-- The units of a run. -/
def sent : List Producer → Producing → List (List Event)
  | [], _ => []
  | p :: ps, s => p.units s ++ sent ps (s.step p)

/-- Which pushes of a run find room. -/
def found : List Producer → Producing → List Bool
  | [], _ => []
  | p :: ps, s => p.found s ++ found ps (s.step p)

/-- How many inline events a run numbers. -/
def numbered : List Producer → Producing → ℕ
  | [], _ => 0
  | p :: ps, s => p.numbered s + numbered ps (s.step p)

end Producing

section Pushes
variable {env : Env} {t : Thread} {capacity head : ℕ} {seq : UInt32} {i : ℕ}

/-- The push takes the number that it is given, for its thread, in the clean calls'
domain. -/
structure Conforms (tid : UInt16) (p : Thread.Push) : Prop where
  seq : ∀ seq, (p.op seq).seq = seq
  key : ∀ seq, opKey (p.op seq) = (tid, 1)
  numbered : ∀ seq, (p.op seq).Numbered

theorem seq_admitted {tid : UInt16} {ps : List Thread.Push} (h : ∀ p ∈ ps, Conforms tid p) :
    (Thread.admitted env capacity head seq i ps).map Op.seq =
      seen 1 seq (Thread.found env capacity head seq i ps) := by
  induction ps generalizing head seq i with
  | nil => rfl
  | cons p ps ih =>
      have hrest : ∀ q ∈ ps, Conforms tid q := fun q hq => h q (List.mem_cons_of_mem _ hq)
      simp only [Thread.admitted, Thread.found]
      split
      · exact ih hrest
      · rw [List.map_cons, seen, (h p List.mem_cons_self).seq, ih hrest]

theorem forall_admitted {P : Op → Prop} {ps : List Thread.Push} (h : ∀ p ∈ ps, ∀ seq, P (p.op seq)) :
    ∀ op ∈ Thread.admitted env capacity head seq i ps, P op := by
  induction ps generalizing head seq i with
  | nil => exact fun op hop => absurd hop List.not_mem_nil
  | cons p ps ih =>
      have hrest : ∀ q ∈ ps, ∀ seq, P (q.op seq) := fun q hq => h q (List.mem_cons_of_mem _ hq)
      intro op hop
      simp only [Thread.admitted] at hop
      split at hop
      · exact ih hrest op hop
      · rcases List.mem_cons.mp hop with rfl | hop
        · exact h p List.mem_cons_self seq
        · exact ih hrest op hop

theorem length_found (ps : List Thread.Push) :
    (Thread.found env capacity head seq i ps).length = ps.length := by
  induction ps generalizing head seq i with
  | nil => rfl
  | cons p ps ih =>
      simp only [Thread.found]
      split <;> simp only [List.length_cons, ih]

end Pushes

/-! ## The counters -/

/-- The thread's number and its two counters. -/
def Thread.counters (t : Thread) : UInt16 × UInt32 × UInt32 := (t.tid, t.seq, t.tlsSeq)

section Counters
variable {env : Env} {t : Thread} {s : Producing}

/-- A call attempts all its pushes or none. -/
theorem attempts_eq (c : CleanCall) (env : Env) (t : Thread) :
    c.attempts env t = if c.Flushes t env then c.pushes env t else [] := by
  have hgated (pushes : Thread → List Thread.Push) : Thread.gated pushes env t =
      if env.phase ≠ .boot ∧ t.guard = false ∧ t.mapped = true then pushes t else [] := by
    rw [Thread.gated]
    cases t.guard <;> cases t.mapped <;> simp
  have hwrapper (p : Prop) [Decidable p] (ps : List Thread.Push) :
      (if p then [] else t.wrapperPushes ps) = if ¬p ∧ t.mapped = true then ps else [] := by
    rw [Thread.wrapperPushes]
    by_cases hp : p <;> cases t.mapped <;> simp [hp]
  cases c with
  | atCall callee frameBase => exact hgated _
  | atReturn retaddr => exact hgated _
  | atTailCall target frameBase => exact hgated _
  | atReload src size reg => exact hgated _
  | flushReadBuf =>
      rw [CleanCall.attempts, hgated, CleanCall.pushes]
      by_cases hempty : t.rdbuf = []
      · simp [CleanCall.Flushes, Thread.readPushes, hempty]
      · simp [CleanCall.Flushes, hempty]
  | wrapMallocPost ret size caller => exact hwrapper _ _
  | wrapReallocPost ret size caller => exact hwrapper _ _
  | wrapReallocPre ptr => exact hwrapper _ _
  | wrapFreePre ptr => exact hwrapper _ _

theorem counters_call (c : CleanCall) (env : Env) (t : Thread) :
    (c.run env t).counters = (t.tid, t.seq, t.tlsSeq + (c.attempts env t).length • 1) := by
  rw [attempts_eq]
  split
  · rename_i hflushes
    obtain ⟨_, _, _, heq⟩ := CleanCall.run_of_flushes hflushes
    rw [heq]
    rfl
  · rename_i hclosed
    obtain ⟨_, heq⟩ := CleanCall.run_of_not_flushes hclosed
    rw [heq, List.length_nil, zero_nsmul, add_zero]
    rfl

theorem counters_syscall (c : Syscall) (env : Env) (t : Thread) :
    (t.eventPreSyscall.eventPostSyscall c env).counters = (t.tid, t.seq, t.tlsSeq +
      (if env.phase = .boot then [] else t.wrapperPushes (c.pushes t)).length • 1) := by
  by_cases hpushes : env.phase ≠ .boot ∧ c.pushes t ≠ [] ∧ t.mapped = true
  · obtain ⟨_, _, heq⟩ := syscall_of_pushes env hpushes
    rw [heq, if_neg hpushes.1, Thread.wrapperPushes, hpushes.2.2]
    rfl
  · have hnone : (if env.phase = .boot then [] else t.wrapperPushes (c.pushes t)) = [] := by
      rw [Thread.wrapperPushes]
      grind
    obtain ⟨_, heq⟩ := syscall_of_no_pushes env hpushes
    rw [heq, hnone, List.length_nil, zero_nsmul, add_zero]
    rfl

/-- A store is numbered where it fills a slot. -/
theorem counters_emitWrite (w : PreWrite) (effect : Memory → Memory) (env : Env) (t : Thread) :
    (t.emitWrite w effect env).counters =
      (t.tid, t.seq + (if (t.writeEvents w effect env).isEmpty then 0 else 1) • 1, t.tlsSeq) := by
  rw [Thread.emitWrite, Thread.writeEvents]
  rcases t.emitPreWrite_cases w env with ⟨_, _, _, heq⟩ | heq
  · rw [heq]
    simp [Thread.emitPostWrite, Thread.counters]
  · rw [heq]
    obtain ⟨_, _, _, hcapture⟩ := captureValue_frame w.post (t.capacity.index t.cached)
      (Producing.armed w (effect t.mem) t)
    simp only [Thread.emitPostWrite, Thread.stored, reduceCtorEq, if_false, List.isEmpty_cons,
      Bool.false_eq_true, one_nsmul]
    exact congrArg (fun u => { u.bumpHead with seq := u.seq + 1 }.counters) hcapture

theorem counters_bbEntry (pc : UInt64) (rip : UInt32) (env : Env) (t : Thread) :
    (t.emitBbEntry pc rip env).counters =
      (t.tid, t.seq + (if (t.bbEvents pc rip env).isEmpty then 0 else 1) • 1, t.tlsSeq) := by
  by_cases hphase : env.phase = .trace
  · cases hmapped : t.mapped with
    | false => simp [Thread.emitBbEntry, Thread.bbEvents, Thread.counters, hphase, hmapped]
    | true =>
        by_cases hbp : t.bp = 0
        · have hevents : (t.bbEvents pc rip env).isEmpty = false := by
            simp [Thread.bbEvents, hphase, hmapped, hbp]
          have hentry : (t.emitBbEntry pc rip env).counters = (t.tid, t.seq + 1, t.tlsSeq) := by
            simp [Thread.emitBbEntry, Thread.counters, Thread.bumpHead, hphase, hmapped, hbp]
          rw [hentry, hevents, if_neg Bool.false_ne_true, one_nsmul]
        · simp [Thread.emitBbEntry, Thread.bbEvents, Thread.counters, hphase, hmapped, hbp]
  · simp [Thread.emitBbEntry, Thread.bbEvents, Thread.counters, hphase]

theorem Producer.numbered_of_push {p : Producer} (h : p.isInline = false) : p.numbered s = 0 := by
  rw [Producer.numbered, h]
  rfl

/-- Each step moves the counters by what it numbers. -/
theorem counters_step (s : Producing) (p : Producer) :
    (s.step p).thread.counters = (s.thread.tid, s.thread.seq + p.numbered s • 1,
      s.thread.tlsSeq + (p.attempts s).length • 1) := by
  have hnone : s.thread.counters = (s.thread.tid, s.thread.seq + 0 • 1,
      s.thread.tlsSeq + ([] : List Thread.Push).length • 1) := by
    simp [Thread.counters]
  have hzero (n : UInt32) : n + ([] : List Thread.Push).length • 1 = n := by simp
  cases p with
  | write w effect env =>
      refine (counters_emitWrite w effect { env with phase := s.phase } s.thread).trans ?_
      simp only [Producer.numbered, Producer.isInline, Producer.events, Producer.attempts, hzero,
        Bool.true_and, Bool.not_eq_true']
      cases (s.thread.writeEvents w effect { env with phase := s.phase }).isEmpty <;> rfl
  | bbEntry pc rip env =>
      refine (counters_bbEntry pc rip { env with phase := s.phase } s.thread).trans ?_
      simp only [Producer.numbered, Producer.isInline, Producer.events, Producer.attempts, hzero,
        Bool.true_and, Bool.not_eq_true']
      cases (s.thread.bbEvents pc rip { env with phase := s.phase }).isEmpty <;> rfl
  | blockEnd env =>
      simp only [Producing.step, Producing.next, Thread.flushHeadCache]
      split <;> exact hnone
  | call c env =>
      have hcounters := counters_call c { env with phase := s.phase } s.thread
      rw [Producer.numbered_of_push rfl, zero_nsmul, add_zero]
      exact hcounters
  | syscall c env =>
      have hcounters := counters_syscall c { env with phase := s.phase } s.thread
      rw [Producer.numbered_of_push rfl, zero_nsmul, add_zero]
      exact hcounters
  | read addr size env => exact hnone
  | app effect => exact hnone
  | tripwire => exact hnone

end Counters

/-! ## The pushes of the clean calls -/

section Attempts
variable {env : Env} {t : Thread}

theorem conforms_pushEx {addr : UInt64} {size : UInt32} {value : UInt64} {kind : UInt8}
    {tid : UInt16} (h : kind ≠ EVENT_WRITE ∧ kind ≠ EVENT_BB_ENTRY ∧ kind ≠ EVENT_REG_SNAPSHOT) :
    Conforms tid (Thread.pushEx addr size value kind tid) where
  seq _ := rfl
  key _ := by
    have hdomain : ¬(kind = 0 ∨ kind = 11) := not_or.mpr ⟨h.1, h.2.1⟩
    rw [Thread.pushEx, opKey, Op.tid, Op.kind, seqDomain, if_neg hdomain]
  numbered _ := ⟨⟨h.2.2, rfl⟩, rfl⟩

theorem conforms_gated {pushes : Thread → List Thread.Push} (h : ∀ p ∈ pushes t, Conforms t.tid p) :
    ∀ p ∈ Thread.gated pushes env t, Conforms t.tid p := by
  rw [Thread.gated]
  split
  · exact fun p hp => absurd hp List.not_mem_nil
  · exact h

theorem conforms_wrapper {ps : List Thread.Push} (h : ∀ p ∈ ps, Conforms t.tid p) :
    ∀ p ∈ t.wrapperPushes ps, Conforms t.tid p := by
  rw [Thread.wrapperPushes]
  split
  · exact fun p hp => absurd hp List.not_mem_nil
  · exact h

theorem conforms_alloc (ret size : UInt64) (caller : UInt32) (t : Thread) :
    ∀ p ∈ Thread.allocPushes ret size caller t, Conforms t.tid p := by
  intro p hp
  rw [List.mem_singleton.mp hp]
  exact ⟨fun _ => rfl, fun _ => rfl, fun _ => ⟨nofun, trivial⟩⟩

theorem conforms_one {p : Thread.Push} (h : Conforms t.tid p) : ∀ q ∈ [p], Conforms t.tid q :=
  fun q hq => by
    rw [List.mem_singleton.mp hq]
    exact h

theorem conforms_call (callee frameBase : UInt64) :
    ∀ p ∈ Thread.callPushes callee frameBase env t, Conforms t.tid p := by
  intro p hp
  simp only [Thread.callPushes, List.mem_append, List.mem_map, List.mem_singleton] at hp
  rcases hp with (⟨_, -, rfl⟩ | rfl) | ⟨_, -, rfl⟩
  · exact conforms_pushEx (by decide)
  · exact conforms_pushEx (by decide)
  · exact ⟨fun _ => rfl, fun _ => rfl, fun _ => ⟨trivial, trivial⟩⟩

theorem conforms_reads (t : Thread) : ∀ p ∈ t.readPushes, Conforms t.tid p := by
  intro p hp
  obtain ⟨r, -, rfl⟩ := List.mem_map.mp hp
  exact ⟨fun _ => rfl, fun _ => rfl, fun _ => ⟨⟨nofun, rfl⟩, rfl⟩⟩

/-- The flags of a reload are a register's number, so the event stands alone. -/
theorem conforms_reload {src : UInt64} {size : UInt32} {reg : UInt8} (h : reg < 16) :
    ∀ p ∈ Thread.reloadPushes src size reg t, Conforms t.tid p := by
  have hflags : ∀ n < 16, UInt8.ofNat n &&& FLAG_COMPOUND = 0 ∧
      UInt8.ofNat n &&& FLAG_CONTINUATION = 0 := by decide
  have hreg := hflags reg.toNat (UInt8.lt_iff_toNat_lt.mp h)
  rw [UInt8.ofNat_toNat] at hreg
  exact conforms_one ⟨fun _ => rfl, fun _ => rfl, fun _ => ⟨⟨nofun, hreg.1⟩, hreg.2⟩⟩

theorem conforms_syscall (c : Syscall) (t : Thread) : ∀ p ∈ c.pushes t, Conforms t.tid p := by
  have hnone : ∀ p ∈ ([] : List Thread.Push), Conforms t.tid p := fun p hp =>
    absurd hp List.not_mem_nil
  have hone (addr : UInt64) (size : UInt32) (length : UInt64) :
      ∀ p ∈ Thread.sharedMapPushes addr size length t, Conforms t.tid p :=
    conforms_one (conforms_pushEx (by decide))
  cases c with
  | mmap length flags fd ret =>
      simp only [Syscall.pushes]
      split
      · exact hnone
      · split
        · exact hnone
        · exact hone ret fd length
  | munmap addr length ret =>
      simp only [Syscall.pushes]
      split
      · exact hnone
      · exact hone addr 0xFFFFFFFF length

theorem conforms_cleanCall (c : CleanCall) {env' : Env}
    (hregs : (Producer.call c env').NamesRegister) :
    ∀ p ∈ c.attempts env t, Conforms t.tid p := by
  have hwrapper {p : Prop} [Decidable p] {ps : List Thread.Push}
      (h : ∀ q ∈ ps, Conforms t.tid q) :
      ∀ q ∈ (if p then [] else t.wrapperPushes ps), Conforms t.tid q := by
    split
    · exact fun q hq => absurd hq List.not_mem_nil
    · exact conforms_wrapper h
  have hfree (ptr : UInt64) : ∀ q ∈ Thread.freePushes ptr t, Conforms t.tid q :=
    conforms_one (conforms_pushEx (by decide))
  cases c with
  | atCall callee frameBase => exact conforms_gated (conforms_call callee frameBase)
  | atReturn retaddr => exact conforms_gated (conforms_one (conforms_pushEx (by decide)))
  | atTailCall target frameBase => exact conforms_gated (conforms_one (conforms_pushEx (by decide)))
  | atReload src size reg => exact conforms_gated (conforms_reload hregs)
  | flushReadBuf => exact conforms_gated (conforms_reads t)
  | wrapMallocPost ret size caller => exact hwrapper (conforms_alloc ret size caller t)
  | wrapReallocPost ret size caller => exact hwrapper (conforms_alloc ret size caller t)
  | wrapReallocPre ptr => exact hwrapper (hfree ptr)
  | wrapFreePre ptr => exact hwrapper (hfree ptr)

theorem conforms_attempts {s : Producing} {p : Producer} (hregs : p.NamesRegister) :
    ∀ q ∈ p.attempts s, Conforms s.thread.tid q := by
  have hnone : ∀ q ∈ ([] : List Thread.Push), Conforms s.thread.tid q := fun q hq =>
    absurd hq List.not_mem_nil
  cases p with
  | call c env => exact conforms_cleanCall c hregs
  | syscall c env =>
      simp only [Producer.attempts]
      split
      · exact hnone
      · exact conforms_wrapper (conforms_syscall c s.thread)
  | _ => exact hnone

end Attempts

/-! ## The numbers the engine sees -/

section Numbers
variable {s : Producing} {k : SeqKey}

/-- The numbers of a key on the leading events of units. -/
def numbersOf (k : SeqKey) (us : List (List Event)) : List UInt32 :=
  SeqTracker.numbers k (us.flatMap (unitLeads false))

theorem numbersOf_append (us vs : List (List Event)) :
    numbersOf k (us ++ vs) = numbersOf k us ++ numbersOf k vs := by
  rw [numbersOf, List.flatMap_append, SeqTracker.numbers_append]
  rfl

theorem seen_append (b : UInt32) (xs ys : List Bool) :
    seen 1 b (xs ++ ys) = seen 1 b xs ++ seen 1 (b + xs.length • 1) ys := by
  induction xs generalizing b with
  | nil => simp [seen]
  | cons x xs ih =>
      have hsucc : b + 1 + xs.length • 1 = b + (xs.length + 1) • 1 := by
        rw [succ_nsmul, add_comm (xs.length • (1 : UInt32)), add_assoc]
      cases x with
      | true => rw [List.cons_append, seen, seen, ih, List.length_cons, ← hsucc, List.cons_append]
      | false => rw [List.cons_append, seen, seen, ih, List.length_cons, ← hsucc]

/-- Events on their own, of which a first one may be numbered. -/
theorem numbersOf_singles {e : Event} {es : List Event} (hlead : e.isContinuation = false)
    (hrest : ∀ x ∈ es, x.isContinuation = true) :
    numbersOf k ((e :: es).map fun x => [x]) = if seqKey e = k then [e.seq32] else [] := by
  have hflat : ((e :: es).map fun x => [x]).flatMap (unitLeads false) = e :: es := by
    rw [List.flatMap_map]
    exact List.flatMap_singleton' (e :: es)
  have hnone : es.filter (fun ev => !ev.isContinuation && seqKey ev == k) = [] := by
    rw [List.filter_eq_nil_iff]
    intro x hx
    rw [hrest x hx]
    exact Bool.false_ne_true
  rw [numbersOf, hflat, SeqTracker.numbers]
  by_cases hk : seqKey e = k
  · rw [List.filter_cons_of_pos (by simp [hlead, hk]), hnone, if_pos hk]
    rfl
  · rw [List.filter_cons_of_neg (by simp [hk]), hnone, if_neg hk]
    rfl

theorem isContinuation_continuation (ea : UInt64) (size : UInt32) (tid : UInt16)
    (chunk : ℕ → UInt64) (j : ℕ) : (continuation ea size tid chunk j).isContinuation = true := by
  have hflags : (continuation ea size tid chunk j).flags = FLAG_CONTINUATION := flags_makeKf ..
  rw [Event.isContinuation, hflags]
  decide

/-- A store shows its number once, in the inline domain. -/
theorem numbersOf_stored (w : PreWrite) (after : Memory) (t : Thread) :
    numbersOf k ((t.stored w after).map fun x => [x]) = if (t.tid, 0) = k then [t.seq] else [] := by
  have hkind (value : UInt64) :
      Event.kind { (⟨w, t.tid, t.seq, after⟩ : Flight).header with value := value } = EVENT_WRITE :=
    kind_makeKf ..
  have hcont (value : UInt64) : Event.isContinuation
      { (⟨w, t.tid, t.seq, after⟩ : Flight).header with value := value } = false := by
    have hflags : Event.flags { (⟨w, t.tid, t.seq, after⟩ : Flight).header with value := value } =
        if w.wide then FLAG_COMPOUND else 0 := flags_makeKf ..
    rw [Event.isContinuation, hflags]
    split <;> decide
  have hseq (value : UInt64) :
      Event.seq32 { (⟨w, t.tid, t.seq, after⟩ : Flight).header with value := value } = t.seq :=
    seq32_split ..
  rw [Thread.stored, numbersOf_singles (hcont _), seqKey, hkind, hseq]
  · rfl
  · split
    · exact fun x hx => absurd hx List.not_mem_nil
    · intro x hx
      obtain ⟨j, -, rfl⟩ := List.mem_map.mp hx
      exact isContinuation_continuation ..

/-- A block entry shows its number, in the inline domain. -/
theorem numbersOf_bbEntry (pc : UInt64) (tid : UInt16) (seq rip : UInt32) :
    numbersOf k [[(Op.bbEntry pc tid seq rip).slot 0]] = if (tid, 0) = k then [seq] else [] := by
  have hkind : ((Op.bbEntry pc tid seq rip).slot 0).kind = EVENT_BB_ENTRY := kind_makeKf ..
  have hseq : ((Op.bbEntry pc tid seq rip).slot 0).seq32 = seq := seq32_split ..
  have hcont : ((Op.bbEntry pc tid seq rip).slot 0).isContinuation = false :=
    @Op.isContinuation_lead (.bbEntry pc tid seq rip) ⟨trivial, trivial⟩
  have hsingle := @numbersOf_singles k _ [] hcont fun x hx => absurd hx List.not_mem_nil
  rw [seqKey, hkind, hseq] at hsingle
  exact hsingle

/-- The units of an inline emission show one number of the inline domain, if any. -/
theorem numbersOf_inline {p : Producer} (hinline : p.isInline = true) :
    numbersOf k (p.units s) = if (s.thread.tid, 0) = k then
      seen 1 s.thread.seq (List.replicate (p.numbered s) true) else [] := by
  have hnone : numbersOf k [] = if (s.thread.tid, 0) = k then
      seen 1 s.thread.seq (List.replicate 0 true) else [] := by
    split <;> rfl
  rw [Producer.units, if_pos hinline, Producer.numbered, hinline, Bool.true_and]
  cases p with
  | write w effect env =>
      rw [Producer.events, Thread.writeEvents]
      split
      · exact hnone
      · exact numbersOf_stored w (effect s.thread.mem) s.thread
  | bbEntry pc rip env =>
      rw [Producer.events, Thread.bbEvents]
      split
      · exact hnone
      · exact numbersOf_bbEntry pc s.thread.tid s.thread.seq rip
  | _ => cases hinline

theorem numbered_admitted {p : Producer} (hregs : p.NamesRegister) :
    ∀ op ∈ p.admitted s, op.Numbered ∧ opKey op = (s.thread.tid, 1) :=
  forall_admitted fun q hq seq =>
    have hq := conforms_attempts hregs q hq
    ⟨hq.numbered seq, hq.key seq⟩

/-- The units of a clean call show the numbers of the pushes that found room. -/
theorem numbersOf_pushes {p : Producer} (hregs : p.NamesRegister) :
    numbersOf k ((p.admitted s).flatMap Engine.units) =
      if (s.thread.tid, 1) = k then seen 1 s.thread.tlsSeq (p.found s) else [] := by
  have hops := numbered_admitted (s := s) hregs
  have hheard : ∀ op ∈ p.admitted s, heard false k op = decide ((s.thread.tid, 1) = k) := by
    intro op hop
    rw [heard, (hops op hop).2, Engine.hidden, Bool.false_and, Bool.not_false, Bool.true_and]
    exact Bool.eq_iff_iff.mpr (by rw [beq_iff_eq, decide_eq_true_iff])
  rw [numbersOf, numbers_flatMap_units false fun op hop => (hops op hop).1]
  by_cases hk : (s.thread.tid, 1) = k
  · rw [if_pos hk, List.filter_eq_self.mpr fun op hop => (hheard op hop).trans (decide_eq_true hk)]
    exact seq_admitted (conforms_attempts hregs)
  · rw [if_neg hk, List.filter_eq_nil_iff.mpr fun op hop => by rw [hheard op hop, decide_eq_false hk]; exact Bool.false_ne_true]
    rfl

/-- A step shows the numbers that it takes, in its domain. -/
theorem numbersOf_units {p : Producer} (hregs : p.NamesRegister) :
    numbersOf k (p.units s) =
      if (s.thread.tid, 0) = k then seen 1 s.thread.seq (List.replicate (p.numbered s) true)
      else if (s.thread.tid, 1) = k then seen 1 s.thread.tlsSeq (p.found s) else [] := by
  cases hinline : p.isInline with
  | true =>
      have hfound : p.found s = [] := by
        cases p with
        | write w effect env => rfl
        | bbEntry pc rip env => rfl
        | _ => cases hinline
      rw [numbersOf_inline hinline, hfound, seen, ite_self]
  | false =>
      rw [Producer.units, hinline, if_neg Bool.false_ne_true, numbersOf_pushes hregs,
        Producer.numbered_of_push hinline]
      by_cases hk : (s.thread.tid, 0) = k
      · subst hk
        rw [if_pos rfl, if_neg (by simp)]
        rfl
      · rw [if_neg hk]

/-- A run shows the numbers of its inline events, one after the other, and those of the
pushes that found room. -/
theorem numbersOf_sent {producers : List Producer} (hregs : ∀ p ∈ producers, p.NamesRegister) :
    numbersOf k (s.sent producers) =
      if (s.thread.tid, 0) = k then
        seen 1 s.thread.seq (List.replicate (s.numbered producers) true)
      else if (s.thread.tid, 1) = k then seen 1 s.thread.tlsSeq (s.found producers) else [] := by
  induction producers generalizing s with
  | nil =>
      simp only [Producing.sent, Producing.numbered, Producing.found, List.replicate_zero, seen,
        ite_self]
      rfl
  | cons p ps ih =>
      have hcounters := counters_step s p
      have hlength : (p.found s).length = (p.attempts s).length := length_found _
      simp only [Thread.counters, Prod.mk.injEq] at hcounters
      rw [Producing.sent, numbersOf_append, numbersOf_units (hregs p List.mem_cons_self),
        ih fun q hq => hregs q (List.mem_cons_of_mem _ hq), hcounters.1, hcounters.2.1,
        hcounters.2.2, Producing.numbered, Producing.found, List.replicate_add, seen_append,
        seen_append, List.length_replicate, hlength]
      split
      · rfl
      · split <;> rfl

end Numbers

/-! ## Runs -/

section Runs
variable {s : Producing}

theorem events_of_push {p : Producer} (h : p.isInline = false) :
    p.events s = (p.admitted s).flatMap Op.slots := by
  have hgated (pushes : Thread → List Thread.Push) (env : Env) (t : Thread) :
      pushed pushes env t = (Thread.admitted env t.capacity.size t.cached t.tlsSeq 0
        (Thread.gated pushes env t)).flatMap Op.slots := by
    rw [pushed, Thread.gated]
    split <;> rfl
  have hungated (ps : List Thread.Push) (env : Env) (t : Thread) :
      ungated ps env t = (Thread.admitted env t.capacity.size t.cached t.tlsSeq 0
        (t.wrapperPushes ps)).flatMap Op.slots := by
    rw [ungated, Thread.wrapperPushes]
    split <;> rfl
  have hwrapper {q : Prop} [Decidable q] (ps : List Thread.Push) (env : Env) (t : Thread) :
      (if q then [] else ungated ps env t) = (Thread.admitted env t.capacity.size t.cached t.tlsSeq 0
        (if q then [] else t.wrapperPushes ps)).flatMap Op.slots := by
    split
    · rfl
    · exact hungated ps env t
  cases p with
  | write w effect env => cases h
  | bbEntry pc rip env => cases h
  | call c env =>
      cases c with
      | atCall callee frameBase => exact hgated ..
      | atReturn retaddr => exact hgated ..
      | atTailCall target frameBase => exact hgated ..
      | atReload src size reg => exact hgated ..
      | flushReadBuf => exact hgated ..
      | wrapMallocPost ret size caller => exact hwrapper ..
      | wrapReallocPost ret size caller => exact hwrapper ..
      | wrapReallocPre ptr => exact hwrapper ..
      | wrapFreePre ptr => exact hwrapper ..
  | syscall c env => exact hwrapper ..
  | _ => rfl

theorem flatten_units_step (p : Producer) : (p.units s).flatten = p.events s := by
  rw [Producer.units]
  split
  · exact List.flatMap_singleton' (p.events s)
  · rename_i hinline
    rw [flatten_flatMap_units, events_of_push (by simpa using hinline)]

/-- The units of a run make up what it appends to the log. -/
theorem log_run (producers : List Producer) :
    (s.run producers).log = s.log ++ (s.sent producers).flatten := by
  induction producers generalizing s with
  | nil => exact (List.append_nil _).symm
  | cons p ps ih =>
      rw [Producing.sent, List.flatten_append, flatten_units_step, ← List.append_assoc, ← log_step]
      exact ih

/-- Inline code never stores a slot of a snapshot. -/
theorem kind_of_inline {p : Producer} (h : p.isInline = true) :
    ∀ e ∈ p.events s, e.kind ≠ EVENT_REG_SNAPSHOT := by
  cases p with
  | write w effect env =>
      intro e he
      rw [Producer.events, Thread.writeEvents] at he
      split at he
      · cases he
      · have hwrite : e.kind = EVENT_WRITE := by
          rcases List.mem_cons.mp he with rfl | he
          · exact kind_makeKf ..
          · split at he
            · cases he
            · obtain ⟨j, -, rfl⟩ := List.mem_map.mp he
              exact kind_continuation ..
        rw [hwrite]
        decide
  | bbEntry pc rip env =>
      intro e he
      rw [Producer.events, Thread.bbEvents] at he
      split at he
      · cases he
      · rw [List.mem_singleton.mp he]
        have hkind : ((Op.bbEntry pc s.thread.tid s.thread.seq rip).slot 0).kind = EVENT_BB_ENTRY :=
          kind_makeKf ..
        rw [hkind]
        decide
  | _ => cases h

theorem isUnit_sent {producers : List Producer} (hregs : ∀ p ∈ producers, p.NamesRegister) :
    ∀ u ∈ s.sent producers, IsUnit u := by
  induction producers generalizing s with
  | nil => exact fun u hu => absurd hu List.not_mem_nil
  | cons p ps ih =>
      intro u hu
      rcases List.mem_append.mp hu with hu | hu
      · rw [Producer.units] at hu
        split at hu
        · rename_i hinline
          obtain ⟨e, he, rfl⟩ := List.mem_map.mp hu
          exact .slot (kind_of_inline hinline e he)
        · obtain ⟨op, hop, hu⟩ := List.mem_flatMap.mp hu
          exact isUnit_of_mem (numbered_admitted (hregs p List.mem_cons_self) op hop).1 hu
      · exact ih (fun q hq => hregs q (List.mem_cons_of_mem _ hq)) u hu

/-- Between neighbouring pushes that found room, how many found none or were shed, modulo
the counter's range; zeros are left out. -/
def refusals (found : List Bool) : List ℕ :=
  ((spacings none found).map (· % 2 ^ 32)).filter (· ≠ 0)

/-- For every run of a thread, drained in batches that cut no snapshot: what the engine
reports as lost are the pushes that were refused or shed between pushes that the ring
took, each block with its size. Inline code that sheds under backpressure leaves no gap. -/
theorem gaps_are_refusals (phase : Phase) (mapped : Bool) (tid : UInt16) (mem : Memory)
    {producers : List Producer} (hregs : ∀ p ∈ producers, p.NamesRegister) (orders : IndexOrders)
    {ticks : List (List Engine.Session.Pass)} {session : Engine.Session} (hstart : session.seq = {})
    (hwhole : Whole (Producing.sent producers (.init phase mapped tid mem))
      (Engine.Session.batches ticks)) (k : SeqKey) :
    (Engine.Session.batches ticks).flatten =
        ((Producing.init phase mapped tid mem).run producers).log ∧
      sizesOf (session.run false orders ticks).seq.gaps k =
        if k = (tid, 1) then
          (refusals (Producing.found producers (.init phase mapped tid mem))).map UInt32.ofNat
        else [] := by
  have hsizes (b : UInt32) (found : List Bool) :
      (breaks 1 none (seen 1 b found)).map (fun p => p.2 - p.1) =
        (refusals found).map UInt32.ofNat := by
    rw [refusals, ← filter_nsmul_one]
    exact sizes_breaks 1 found b none
  have hnone (n : ℕ) : refusals (List.replicate n true) = [] := by
    rw [refusals, List.filter_eq_nil_iff]
    intro m hm
    obtain ⟨j, hj, rfl⟩ := List.mem_map.mp hm
    rw [eq_zero_of_mem_spacings hj]
    decide
  have hgaps : sizesOf (session.run false orders ticks).seq.gaps k =
      (breaks 1 none (numbersOf k (Producing.sent producers (.init phase mapped tid mem)))).map
        fun p => p.2 - p.1 := by
    rw [Engine.Session.seq_run, hstart, sizesOf_eq, SeqTracker.gapsOf_hear,
      leads_whole (isUnit_sent hregs) hwhole]
    rfl
  refine ⟨?_, ?_⟩
  · obtain ⟨us, hus, hbatches⟩ := hwhole
    have hlog := log_run (s := .init phase mapped tid mem) producers
    rw [hbatches, hlog, ← hus, List.flatten_flatten]
    rfl
  · have hnumbers := numbersOf_sent (s := .init phase mapped tid mem) (k := k) hregs
    have htid : (Producing.init phase mapped tid mem).thread.tid = tid := rfl
    rw [htid] at hnumbers
    rw [hgaps, hnumbers]
    by_cases hinline : (tid, 0) = k
    · have hother : ¬ k = (tid, 1) := by
        rw [← hinline]
        simp
      rw [if_pos hinline, if_neg hother, hsizes, hnone, List.map_nil]
    · by_cases hpush : (tid, 1) = k
      · rw [if_neg hinline, if_pos hpush, if_pos hpush.symm, hsizes]
      · rw [if_neg hinline, if_neg hpush, if_neg (Ne.symm hpush)]
        rfl

/-- Two returns with a read between them whose flush comes under backpressure. -/
def readShed : List Producer :=
  [.call (.atReturn 0x1010) .plain, .read 0x2000 8 .plain,
    .call .flushReadBuf { Env.plain with pressure := fun _ => 1 }, .call (.atReturn 0x1020) .plain]

/-- One batch of the root's ring. -/
def drained (events : List Event) : List (List Engine.Session.Pass) :=
  [[{ root := events.map fun ev => (Host.plain, ev) }]]

theorem read_shed_is_reported :
    let s := Producing.init .trace true 7 fun _ => some 0
    sizesOf (Engine.Session.run false .plain (drained (s.sent readShed).flatten) {}).seq.gaps
      (7, 1) = [1] := by
  intro s
  have hbatches : Engine.Session.batches (drained (s.sent readShed).flatten) =
      [(s.sent readShed).flatten] := by simp [Engine.Session.batches, drained]
  have hregs : ∀ p ∈ readShed, p.NamesRegister := by simp [readShed, Producer.NamesRegister]
  have hfresh : ({} : Engine.Session).seq = {} := rfl
  have hgaps := (gaps_are_refusals .trace true 7 (fun _ => some 0) hregs .plain hfresh
    ⟨[s.sent readShed], by simp [s], hbatches⟩ (7, 1)).2
  have hrefusals : refusals (Producing.found readShed (.init .trace true 7 fun _ => some 0)) = [1] := by
    decide +kernel
  rw [if_pos rfl, hrefusals] at hgaps
  exact hgaps

end Runs

end Rtmap.Tracer
