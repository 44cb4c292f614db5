import Mathlib.Data.UInt
import Rtmap.Ring.Accounting
import Rtmap.Tracer.HeadCache

/-!
# Backpressure

A store is recorded without a look at the ring's tail: what keeps it from overwriting
unread slots is the tier that the engine derives from the fill, and that the thread
mirrors into raw TLS. The engine's reads and the thread's emissions interleave freely. As
long as no inline emission ends more than an eighth of the ring behind the head whose tier
the thread acts on, nothing is lapped and everything is delivered in order.
-/
namespace Rtmap.Tracer
open Rtmap.Ring Rtmap.Transition

def BP_SHED_READS : ℕ := 6
def BP_SHED_WRITES : ℕ := 7
def BP_LOW : ℕ := 3
def BP_TIER_SHED_READS : ℕ := 1

/-- The tier of a ring at `tail` whose head was read as `head`. -/
def updateBackpressure (capacity head tail bp : ℕ) : ℕ :=
  let fillEighths := ((head - tail) * 8 % 2 ^ 64) / capacity
  if BP_SHED_WRITES ≤ fillEighths then BP_TIER_SHED_WRITES
  else if BP_SHED_READS ≤ fillEighths then BP_TIER_SHED_READS
  else if fillEighths < BP_LOW then 0
  else bp

/-- Below the tier that sheds writes an eighth of the ring is free. -/
theorem headroom_of_tier {c : Capacity} {head tail bp : ℕ} (hroom : head ≤ tail + c.size)
    (h : updateBackpressure c.size head tail bp < BP_TIER_SHED_WRITES) :
    8 * head < 7 * c.size + 8 * tail := by
  have hpos := c.size_pos
  have hfits := c.fits
  have hmod : (head - tail) * 8 % 2 ^ 64 = (head - tail) * 8 := Nat.mod_eq_of_lt (by omega)
  by_contra hfull
  have hfill : BP_SHED_WRITES ≤ (head - tail) * 8 / c.size := by
    rw [Nat.le_div_iff_mul_le hpos, BP_SHED_WRITES]
    omega
  simp only [updateBackpressure, hmod, if_pos hfill] at h
  exact absurd h (lt_irrefl _)

/-! ## What a producer's step mirrors -/

/-- The call gets as far as its flush. -/
def CleanCall.Flushes (t : Thread) (env : Env) : CleanCall → Prop
  | .atCall .. | .atReturn _ | .atTailCall .. | .atReload .. =>
      env.phase ≠ .boot ∧ t.guard = false ∧ t.mapped = true
  | .flushReadBuf => env.phase ≠ .boot ∧ t.guard = false ∧ t.rdbuf ≠ [] ∧ t.mapped = true
  | .wrapMallocPost ret .. | .wrapReallocPost ret .. => ret ≠ 0 ∧ t.mapped = true
  | .wrapReallocPre ptr | .wrapFreePre ptr => ptr ≠ 0 ∧ t.mapped = true

instance (t : Thread) (env : Env) (c : CleanCall) : Decidable (c.Flushes t env) := by
  cases c <;> exact inferInstanceAs (Decidable (_ ∧ _))

namespace Producer

/-- The tier that the step copies into raw TLS. -/
def mirrored (s : Producing) : Producer → Option ℕ
  | .blockEnd env => if s.thread.mapped then some env.tier else none
  | .call c env =>
      if c.Flushes s.thread { env with phase := s.phase } then some env.tier else none
  | .syscall c env =>
      if s.phase ≠ .boot ∧ c.pushes s.thread ≠ [] ∧ s.thread.mapped = true then some env.tier
      else none
  | .write .. | .bbEntry .. | .read .. | .app _ | .tripwire => none

/-- Emitted by inline code, at the cached head and without a look at the tail. -/
def isInline : Producer → Bool
  | .write .. | .bbEntry .. => true
  | _ => false

/-- The step with the tier and the tails that it finds in the ring. A tail that was read
may be old. -/
def observing (tier tail : ℕ) : Producer → Producer
  | .write w effect env => .write w effect (observed env)
  | .bbEntry pc rip env => .bbEntry pc rip (observed env)
  | .blockEnd env => .blockEnd (observed env)
  | .call c env => .call c (observed env)
  | .syscall c env => .syscall c (observed env)
  | .read addr size env => .read addr size (observed env)
  | .app effect => .app effect
  | .tripwire => .tripwire
where
  observed (env : Env) : Env := { env with tier := tier, tail := fun i => min (env.tail i) tail }

end Producer

/-! ## What a producer's step does to its thread -/

/-- The pushes of a call that gets as far as its flush. -/
def CleanCall.pushes : CleanCall → Env → Thread → List Thread.Push
  | .atCall callee frameBase, env, t => Thread.callPushes callee frameBase env t
  | .atReturn retaddr, _, t => Thread.returnPushes retaddr t
  | .atTailCall target frameBase, _, t => Thread.tailCallPushes target frameBase t
  | .atReload src size reg, _, t => Thread.reloadPushes src size reg t
  | .flushReadBuf, _, t => t.readPushes
  | .wrapMallocPost ret size caller, _, t | .wrapReallocPost ret size caller, _, t =>
      Thread.allocPushes ret size caller t
  | .wrapReallocPre ptr, _, t | .wrapFreePre ptr, _, t => Thread.freePushes ptr t

/-- A thread that has made some pushes and a sync: its cached head is the ring's, and its tier
the one in the ring. -/
def Thread.synced (env : Env) (slots : ℕ → Event) (head pushes : ℕ) (rdbuf : List ReadEntry)
    (t : Thread) : Thread :=
  { t with
    slots := slots
    head := head
    cached := head
    tlsSeq := t.tlsSeq + pushes • 1
    bp := env.tier
    rdbuf := rdbuf }

section Frame
variable {env : Env} {t : Thread}

/-- Pushes change the slots and the head, and each takes a number. -/
theorem pushAll_frame (env : Env) (i : ℕ) (ps : List Thread.Push) (t : Thread) :
    ∃ slots head, t.pushAll env i ps =
      { t with slots := slots, head := head, tlsSeq := t.tlsSeq + ps.length • 1 } := by
  induction ps generalizing i t with
  | nil =>
      refine ⟨t.slots, t.head, ?_⟩
      rw [Thread.pushAll, List.length_nil, zero_nsmul, add_zero]
  | cons p ps ih =>
      have hsucc : t.tlsSeq + 1 + ps.length • 1 = t.tlsSeq + (ps.length + 1) • 1 := by
        rw [succ_nsmul, add_comm (ps.length • (1 : UInt32)), add_assoc]
      rw [Thread.pushAll, List.length_cons, ← hsucc]
      dsimp only
      split
      · exact ih (i + 1) { t with tlsSeq := t.tlsSeq + 1 }
      · exact ih (i + 1) { t with
          slots := storeRun t.capacity t.slots t.head (p.op t.tlsSeq).slots
          head := t.head + (p.op t.tlsSeq).slots.length
          tlsSeq := t.tlsSeq + 1 }

theorem flushed_pushes (env : Env) (hmapped : t.mapped = true) (ps : List Thread.Push) :
    ∃ slots head, ((t.flushHeadCache env).pushAll env 0 ps).syncHeadCache env =
      t.synced env slots head ps.length t.rdbuf := by
  have hflush : t.flushHeadCache env = { t with head := t.cached, bp := env.tier } := by
    rw [Thread.flushHeadCache, if_pos hmapped]
  obtain ⟨slots, head, heq⟩ := pushAll_frame env 0 ps (t.flushHeadCache env)
  refine ⟨slots, head, ?_⟩
  rw [heq, hflush]
  exact if_pos hmapped

/-- What the calls do to a thread: those that flush push and sync, and the others leave it alone
but for its read buffer. -/
theorem CleanCall.run_of_flushes {c : CleanCall} (h : c.Flushes t env) :
    ∃ slots head rdbuf, c.run env t = t.synced env slots head (c.pushes env t).length rdbuf := by
  have hclean (pushes : Thread → List Thread.Push)
      (hopen : env.phase ≠ .boot ∧ t.guard = false ∧ t.mapped = true) :
      ∃ slots head rdbuf,
        t.cleanCall pushes env = t.synced env slots head (pushes t).length rdbuf := by
    obtain ⟨slots, head, heq⟩ := flushed_pushes env hopen.2.2 (pushes t)
    refine ⟨slots, head, t.rdbuf, ?_⟩
    rw [Thread.cleanCall, if_neg hopen.1, hopen.2.1, hopen.2.2]
    exact heq
  have hwrapped (pushes : Thread → List Thread.Push) {p : Prop} [Decidable p]
      (hopen : ¬p ∧ t.mapped = true) :
      ∃ slots head rdbuf, (if p then t else t.wrapped pushes env) =
        t.synced env slots head (pushes t).length rdbuf := by
    obtain ⟨slots, head, heq⟩ := flushed_pushes env hopen.2 (pushes t)
    refine ⟨slots, head, t.rdbuf, ?_⟩
    rw [if_neg hopen.1, Thread.wrapped, hopen.2]
    exact heq
  cases c with
  | atCall callee frameBase => exact hclean _ h
  | atReturn retaddr => exact hclean _ h
  | atTailCall target frameBase => exact hclean _ h
  | atReload src size reg => exact hclean _ h
  | flushReadBuf =>
      obtain ⟨hboot, hguard, hempty, hmapped⟩ := h
      obtain ⟨slots, head, heq⟩ := flushed_pushes env hmapped t.readPushes
      refine ⟨slots, head, [], ?_⟩
      rw [CleanCall.run, Thread.flushReadBuf, if_neg hboot, hguard, if_neg Bool.false_ne_true,
        if_neg hempty, hmapped, heq]
      rfl
  | wrapMallocPost ret size caller => exact hwrapped _ h
  | wrapReallocPost ret size caller => exact hwrapped _ h
  | wrapFreePre ptr => exact hwrapped _ h
  | wrapReallocPre ptr =>
      rw [CleanCall.run, Thread.wrapReallocPre, ite_not]
      exact hwrapped _ h

theorem CleanCall.run_of_not_flushes {c : CleanCall} (h : ¬c.Flushes t env) :
    ∃ rdbuf, c.run env t = { t with rdbuf := rdbuf } := by
  have hclean (pushes : Thread → List Thread.Push)
      (hclosed : ¬(env.phase ≠ .boot ∧ t.guard = false ∧ t.mapped = true)) :
      ∃ rdbuf, t.cleanCall pushes env = { t with rdbuf := rdbuf } := by
    refine ⟨t.rdbuf, ?_⟩
    rw [Thread.cleanCall]
    split
    · rfl
    · split
      · rfl
      · split
        · rfl
        · rename_i hboot hguard hmapped
          exact absurd ⟨hboot, by simpa using hguard, by simpa using hmapped⟩ hclosed
  have hwrapped (pushes : Thread → List Thread.Push) {p : Prop} [Decidable p]
      (hclosed : ¬(¬p ∧ t.mapped = true)) :
      ∃ rdbuf, (if p then t else t.wrapped pushes env) = { t with rdbuf := rdbuf } := by
    refine ⟨t.rdbuf, ?_⟩
    split
    · rfl
    · rw [Thread.wrapped]
      split
      · rfl
      · rename_i hp hmapped
        exact absurd ⟨hp, by simpa using hmapped⟩ hclosed
  cases c with
  | atCall callee frameBase => exact hclean _ h
  | atReturn retaddr => exact hclean _ h
  | atTailCall target frameBase => exact hclean _ h
  | atReload src size reg => exact hclean _ h
  | flushReadBuf =>
      rw [CleanCall.run, Thread.flushReadBuf]
      split
      · exact ⟨t.rdbuf, rfl⟩
      · split
        · exact ⟨t.rdbuf, rfl⟩
        · split
          · exact ⟨t.rdbuf, rfl⟩
          · split
            · exact ⟨[], rfl⟩
            · rename_i hboot hguard hempty hmapped
              exact absurd ⟨hboot, by simpa using hguard, hempty, by simpa using hmapped⟩ h
  | wrapMallocPost ret size caller => exact hwrapped _ h
  | wrapReallocPost ret size caller => exact hwrapped _ h
  | wrapFreePre ptr => exact hwrapped _ h
  | wrapReallocPre ptr =>
      rw [CleanCall.run, Thread.wrapReallocPre, ite_not]
      exact hwrapped _ h

theorem eventPreSyscall_eq_head (t : Thread) :
    ∃ head, t.eventPreSyscall = { t with head := head } := by
  unfold Thread.eventPreSyscall
  split
  · exact ⟨t.head, rfl⟩
  · split
    · exact ⟨t.cached, rfl⟩
    · exact ⟨t.head, rfl⟩

theorem syscall_of_pushes (env : Env) {c : Syscall}
    (h : env.phase ≠ .boot ∧ c.pushes t ≠ [] ∧ t.mapped = true) :
    ∃ slots head, t.eventPreSyscall.eventPostSyscall c env =
      t.synced env slots head (c.pushes t).length t.rdbuf := by
  obtain ⟨before, hpre⟩ := eventPreSyscall_eq_head t
  have hpushes : c.pushes { t with head := before } = c.pushes t := by cases c <;> rfl
  obtain ⟨slots, head, heq⟩ := pushAll_frame env 0 (c.pushes t) { t with head := before }
  refine ⟨slots, head, ?_⟩
  rw [hpre, Thread.eventPostSyscall, hpushes, if_neg h.1, if_neg h.2.1, heq,
    if_neg (by simp [h.2.2]), Thread.syncHeadCache, if_pos h.2.2]
  rfl

theorem syscall_of_no_pushes (env : Env) {c : Syscall}
    (h : ¬(env.phase ≠ .boot ∧ c.pushes t ≠ [] ∧ t.mapped = true)) :
    ∃ head, t.eventPreSyscall.eventPostSyscall c env = { t with head := head } := by
  obtain ⟨head, hpre⟩ := eventPreSyscall_eq_head t
  have hpushes : c.pushes { t with head := head } = c.pushes t := by cases c <;> rfl
  refine ⟨head, ?_⟩
  rw [hpre, Thread.eventPostSyscall, hpushes]
  split
  · rfl
  · split
    · rfl
    · split
      · rfl
      · rename_i hboot hnone hmapped
        exact absurd ⟨hboot, hnone, by simpa using hmapped⟩ h

theorem captureValue_frame (p : PostWrite) (i : ℕ) (t : Thread) :
    ∃ slots cached truncated, t.captureValue p i =
      { t with slots := slots, cached := cached, truncatedWrites := truncated } := by
  rw [Thread.captureValue]
  split
  · split
    · rw [Thread.compoundFillContinuations]
      split
      · exact ⟨_, _, _, rfl⟩
      · split <;> exact ⟨_, _, _, rfl⟩
    · exact ⟨_, _, _, rfl⟩
  · split <;> exact ⟨_, _, _, rfl⟩

end Frame

/-- The tier that a thread acts on is the one it mirrored last. -/
theorem bp_step (s : Producing) (p : Producer) :
    (s.step p).thread.bp = (p.mirrored s).getD s.thread.bp := by
  cases p with
  | write w effect env =>
      have hpre : (s.thread.emitPreWrite w { env with phase := s.phase }).bp = s.thread.bp := by
        rcases s.thread.emitPreWrite_cases w { env with phase := s.phase } with
          ⟨_, _, _, heq⟩ | heq <;> rw [heq]
      simp only [Producing.step, Producing.next, Thread.emitWrite, Thread.emitPostWrite,
        Producer.mirrored, Option.getD_none]
      split
      · exact hpre
      · rename_i i _
        obtain ⟨_, _, _, heq⟩ := captureValue_frame w.post i { s.thread.emitPreWrite w
          { env with phase := s.phase } with mem := effect s.thread.mem }
        rw [heq]
        exact hpre
  | bbEntry pc rip env =>
      simp only [Producing.step, Producing.next, Thread.emitBbEntry, Producer.mirrored]
      grind [Thread.bumpHead]
  | blockEnd env =>
      simp only [Producing.step, Producing.next, Thread.flushHeadCache, Producer.mirrored]
      split <;> rfl
  | call c env =>
      simp only [Producing.step, Producing.next, Producer.mirrored]
      split
      · rename_i hflushes
        obtain ⟨_, _, _, heq⟩ := CleanCall.run_of_flushes hflushes
        rw [heq]
        rfl
      · rename_i hclosed
        obtain ⟨_, heq⟩ := CleanCall.run_of_not_flushes hclosed
        rw [heq]
        rfl
  | syscall c env =>
      simp only [Producing.step, Producing.next, Producer.mirrored]
      split
      · rename_i hpushes
        obtain ⟨_, _, heq⟩ := syscall_of_pushes { env with phase := s.phase } hpushes
        rw [heq]
        rfl
      · rename_i hquiet
        obtain ⟨_, heq⟩ := syscall_of_no_pushes { env with phase := s.phase } hquiet
        rw [heq]
        rfl
  | read addr size env => rfl
  | app effect => rfl
  | tripwire => rfl

theorem capacity_step {s : Producing} (h : s.Steady) (p : Producer) :
    (s.step p).thread.capacity = s.thread.capacity := by
  cases p with
  | write w effect env =>
      exact (Producing.emitWrite_cases h.logged.head_le { env with phase := s.phase } w effect).1.capacity
  | bbEntry pc rip env => grind [Producing.step, Producing.next, Thread.emitBbEntry, Thread.bumpHead]
  | blockEnd env =>
      simp only [Producing.step, Producing.next, Thread.flushHeadCache]
      split <;> rfl
  | call c env =>
      simp only [Producing.step, Producing.next]
      by_cases hflushes : c.Flushes s.thread { env with phase := s.phase }
      · obtain ⟨_, _, _, heq⟩ := CleanCall.run_of_flushes hflushes
        rw [heq]
        rfl
      · obtain ⟨_, heq⟩ := CleanCall.run_of_not_flushes hflushes
        rw [heq]
  | syscall c env =>
      simp only [Producing.step, Producing.next]
      by_cases hpushes : s.phase ≠ .boot ∧ c.pushes s.thread ≠ [] ∧ s.thread.mapped = true
      · obtain ⟨_, _, heq⟩ := syscall_of_pushes { env with phase := s.phase } hpushes
        rw [heq]
        rfl
      · obtain ⟨_, heq⟩ := syscall_of_no_pushes { env with phase := s.phase } hpushes
        rw [heq]
  | read addr size env => rfl
  | app effect => rfl
  | tripwire => rfl

/-! ## Room -/

section Room
variable {env : Env} {t : Thread} {tail : ℕ}

/-- Every push of a clean call checks the ring for room. -/
def Checked (pushes : List Thread.Push) : Prop := ∀ p ∈ pushes, ∀ seq, (p.op seq).isInline = false

theorem checked_callPushes (callee frameBase : UInt64) :
    Checked (Thread.callPushes callee frameBase env t) := by
  intro p hp seq
  simp only [Thread.callPushes, List.mem_append, List.mem_map, List.mem_singleton] at hp
  rcases hp with (⟨_, _, rfl⟩ | rfl) | ⟨_, _, rfl⟩ <;> rfl

theorem checked_singleton {p : Thread.Push} (h : ∀ seq, (p.op seq).isInline = false) :
    Checked [p] := fun q hq => by
  rw [List.mem_singleton.mp hq]
  exact h

theorem checked_readPushes (t : Thread) : Checked t.readPushes := by
  intro p hp seq
  obtain ⟨r, -, rfl⟩ := List.mem_map.mp hp
  rfl

/-- What is admitted against tails not beyond the real one fits below it. -/
theorem admitted_fits {capacity head : ℕ} {seq : UInt32} {i : ℕ} {pushes : List Thread.Push}
    (hchecked : Checked pushes) (htails : ∀ i, env.tail i ≤ tail) (htail : tail ≤ head)
    (hroom : head ≤ tail + capacity)
    (hbound : head + ((Thread.admitted env capacity head seq i pushes).flatMap Op.slots).length <
      2 ^ 64) :
    head + ((Thread.admitted env capacity head seq i pushes).flatMap Op.slots).length ≤
      tail + capacity := by
  induction pushes generalizing head seq i with
  | nil => exact hroom
  | cons p ps ih =>
      have hrest : Checked ps := fun q hq => hchecked q (List.mem_cons_of_mem p hq)
      unfold Thread.admitted at hbound ⊢
      dsimp only at hbound ⊢
      split
      · rename_i hrefused
        rw [if_pos hrefused] at hbound
        exact ih hrest htail hroom hbound
      · rename_i hpass
        rw [if_neg hpass] at hbound
        simp only [List.flatMap_cons, List.length_append, ← Nat.add_assoc] at hbound ⊢
        have hadmits : (p.sampled = true → env.pressure i = 0) ∧
            (p.op seq).admits capacity head (env.tail i) = true := by simpa using hpass
        have hfits := Op.admits_room hadmits.2 (hchecked p List.mem_cons_self seq)
          ((htails i).trans htail) (by omega)
        exact ih hrest (by omega) (hfits.trans (Nat.add_le_add_right (htails i) _)) hbound

variable {pushes : Thread → List Thread.Push}

theorem ungated_fits {pushes : List Thread.Push} (hchecked : Checked pushes)
    (htails : ∀ i, env.tail i ≤ tail) (htail : tail ≤ t.cached)
    (hroom : t.cached ≤ tail + t.capacity.size)
    (hbound : t.cached + (ungated pushes env t).length < 2 ^ 64) :
    t.cached + (ungated pushes env t).length ≤ tail + t.capacity.size := by
  unfold ungated at hbound ⊢
  split
  · exact hroom
  · rename_i hmapped
    rw [if_neg hmapped] at hbound
    exact admitted_fits hchecked htails htail hroom hbound

theorem pushed_fits (hchecked : Checked (pushes t)) (htails : ∀ i, env.tail i ≤ tail)
    (htail : tail ≤ t.cached) (hroom : t.cached ≤ tail + t.capacity.size)
    (hbound : t.cached + (pushed pushes env t).length < 2 ^ 64) :
    t.cached + (pushed pushes env t).length ≤ tail + t.capacity.size := by
  unfold pushed at hbound ⊢
  split
  · exact hroom
  · rename_i hopen
    rw [if_neg hopen] at hbound
    exact admitted_fits hchecked htails htail hroom hbound

theorem call_fits (c : CleanCall) (htails : ∀ i, env.tail i ≤ tail) (htail : tail ≤ t.cached)
    (hroom : t.cached ≤ tail + t.capacity.size)
    (hbound : t.cached + (c.events env t).length < 2 ^ 64) :
    t.cached + (c.events env t).length ≤ tail + t.capacity.size := by
  have hwrapper {p : Prop} [Decidable p] {pushes : List Thread.Push} (hchecked : Checked pushes)
      (hbound : t.cached + (if p then [] else ungated pushes env t).length < 2 ^ 64) :
      t.cached + (if p then [] else ungated pushes env t).length ≤ tail + t.capacity.size := by
    split
    · exact hroom
    · rename_i hp
      rw [if_neg hp] at hbound
      exact ungated_fits hchecked htails htail hroom hbound
  have hone {p : Thread.Push} (h : ∀ seq, (p.op seq).isInline = false) := checked_singleton h
  cases c with
  | atCall callee frameBase =>
      exact pushed_fits (checked_callPushes callee frameBase) htails htail hroom hbound
  | atReturn retaddr => exact pushed_fits (hone fun _ => rfl) htails htail hroom hbound
  | atTailCall target frameBase =>
      exact pushed_fits (hone fun _ => rfl) htails htail hroom hbound
  | atReload src size reg => exact pushed_fits (hone fun _ => rfl) htails htail hroom hbound
  | flushReadBuf => exact pushed_fits (checked_readPushes t) htails htail hroom hbound
  | wrapMallocPost ret size caller => exact hwrapper (hone fun _ => rfl) hbound
  | wrapReallocPost ret size caller => exact hwrapper (hone fun _ => rfl) hbound
  | wrapReallocPre ptr => exact hwrapper (hone fun _ => rfl) hbound
  | wrapFreePre ptr => exact hwrapper (hone fun _ => rfl) hbound

theorem checked_syscall (c : Syscall) (t : Thread) : Checked (c.pushes t) := by
  have hnone : Checked [] := fun p hp => absurd hp List.not_mem_nil
  have hone (addr : UInt64) (size : UInt32) (length : UInt64) :
      Checked (Thread.sharedMapPushes addr size length t) := checked_singleton fun _ => rfl
  cases c with
  | mmap length flags fd ret =>
      simp only [Syscall.pushes]
      split
      · exact hnone
      · split
        · exact hnone
        · exact hone ret fd length
  | munmap addr length ret =>
      simp only [Syscall.pushes]
      split
      · exact hnone
      · exact hone addr 0xFFFFFFFF length

end Room

section Step
variable {s : Producing} {tier tail : ℕ}

/-- The events of a step. -/
def Producer.events (s : Producing) : Producer → List Event
  | .write w effect env => s.thread.writeEvents w effect { env with phase := s.phase }
  | .bbEntry pc rip env => s.thread.bbEvents pc rip { env with phase := s.phase }
  | .call c env => c.events { env with phase := s.phase } s.thread
  | .syscall c env =>
      if s.phase = .boot then []
      else ungated (c.pushes s.thread) { env with phase := s.phase } s.thread
  | .blockEnd _ | .read .. | .app _ | .tripwire => []

theorem log_step (s : Producing) (p : Producer) : (s.step p).log = s.log ++ p.events s := by
  cases p with
  | tripwire => exact (List.append_nil _).symm
  | _ => rfl

theorem Producing.Steady.cached_step (h : s.Steady) (p : Producer) :
    (s.step p).thread.cached = s.thread.cached + (p.events s).length := by
  have hlog := (h.step p).coherent.accounted
  rw [log_step, List.length_append] at hlog
  rw [hlog, h.coherent.accounted]

theorem isInline_observing (p : Producer) : (p.observing tier tail).isInline = p.isInline := by
  cases p <;> rfl

/-- What is mirrored is the tier in the ring. -/
theorem eq_of_mirrored_observing {p : Producer} {mirrored : ℕ}
    (h : (p.observing tier tail).mirrored s = some mirrored) : mirrored = tier := by
  cases p with
  | blockEnd env | call c env | syscall c env =>
      simp only [Producer.observing, Producer.mirrored] at h
      split at h
      · exact (Option.some.inj h).symm
      · cases h
  | _ => cases h

/-- Outside inline code the cached head stays within a capacity of the tail. -/
theorem Producing.Steady.room_step (h : s.Steady) (p : Producer) (hinline : p.isInline = false)
    (htail : tail ≤ s.thread.cached) (hroom : s.thread.cached ≤ tail + s.thread.capacity.size)
    (hbound : (s.step (p.observing tier tail)).thread.cached < 2 ^ 64) :
    (s.step (p.observing tier tail)).thread.cached ≤ tail + s.thread.capacity.size := by
  have htails (env : Env) (i : ℕ) : min (env.tail i) tail ≤ tail := Nat.min_le_right _ _
  rw [h.cached_step] at hbound ⊢
  cases p with
  | write w effect env => cases hinline
  | bbEntry pc rip env => cases hinline
  | call c env => exact call_fits c (htails env) htail hroom hbound
  | syscall c env =>
      simp only [Producer.observing, Producer.events] at hbound ⊢
      split
      · exact hroom
      · rename_i hphase
        rw [if_neg hphase] at hbound
        exact ungated_fits (checked_syscall c s.thread) (htails env) htail hroom hbound
  | blockEnd env => exact hroom
  | read addr size env => exact hroom
  | app effect => exact hroom
  | tripwire => exact hroom

/-- At the tier that sheds writes inline code emits nothing. -/
theorem events_of_shed (p : Producer) (hinline : p.isInline = true)
    (hshed : BP_TIER_SHED_WRITES ≤ s.thread.bp) : p.events s = [] := by
  cases p with
  | write w effect env =>
      refine if_pos ?_
      unfold Thread.emitPreWrite
      split
      · rfl
      · split
        · rfl
        · split
          · rfl
          · rfl
  | bbEntry pc rip env =>
      have hbp : s.thread.bp ≠ 0 := fun hzero => by
        rw [hzero] at hshed
        cases hshed
      exact if_pos (.inr (.inr hbp))
  | _ => cases hinline

end Step

/-! ## The thread and the engine -/

/-- Where the engine is: `copying` holds the head of a `consume_batch` and the slots it
has read, `sampling` the head that `update_backpressure` has read. -/
inductive DrainPhase where
  | idle
  | copying (outLen head : ℕ) (got : List Event)
  | sampling (head : ℕ)

/-- A thread, its ring and the engine. `decided` is the head whose tier is in the ring,
`acting` the head whose tier is in raw TLS. -/
structure Regulated where
  producing : Producing
  drained : Drained
  backpressure : ℕ
  engine : DrainPhase
  decided : ℕ
  acting : ℕ

inductive Interaction where
  | produce (p : Producer)
  | beginBatch (outLen : ℕ)
  | readSlot
  | endBatch
  | sampleHead
  | setTier

namespace Regulated

def init (phase : Phase) (mapped : Bool) (tid : UInt16) (mem : Memory) : Regulated where
  producing := .init phase mapped tid mem
  drained := .opened THREAD_RING_CAPACITY 0
  backpressure := 0
  engine := .idle
  decided := 0
  acting := 0

/-- The position of the first slot that a call copies. -/
def position (s : Regulated) (head : ℕ) : ℕ := (s.drained.ring.resync head).2

/-- The number of slots it copies at most. -/
def limit (s : Regulated) (outLen head : ℕ) : ℕ := min (head - s.position head) outLen

/-- The step as the thread takes it in this state of the ring. -/
def observed (s : Regulated) (p : Producer) : Producer :=
  p.observing s.backpressure s.drained.ring.tail

def produce (s : Regulated) (p : Producer) : Regulated :=
  { s with
    producing := s.producing.step (s.observed p)
    acting := if ((s.observed p).mirrored s.producing).isSome then s.decided else s.acting }

def step : Interaction → Regulated → Option Regulated
  | .produce p, s => some (s.produce p)
  | .beginBatch outLen, s =>
      match s.engine with
      | .idle => some { s with engine := .copying outLen s.producing.thread.head [] }
      | _ => none
  | .readSlot, s =>
      match s.engine with
      | .copying outLen head got =>
          if got.length < s.limit outLen head then
            let t := s.producing.thread
            let e := t.slots (t.capacity.index (s.position head + got.length))
            some { s with engine := .copying outLen head (got ++ [e]) }
          else none
      | _ => none
  | .endBatch, s =>
      match s.engine with
      | .copying outLen head got =>
          if s.limit outLen head ≤ got.length then
            some { s with
              engine := .idle
              drained := s.drained.call
                ⟨outLen, head, fun n => got.getD n .zero, s.producing.thread.head⟩ }
          else none
      | _ => none
  | .sampleHead, s =>
      match s.engine with
      | .idle => some { s with engine := .sampling s.producing.thread.head }
      | _ => none
  | .setTier, s =>
      match s.engine with
      | .sampling head =>
          some { s with
            engine := .idle
            backpressure := updateBackpressure s.drained.ring.capacity.size head
              s.drained.ring.tail s.backpressure
            decided := head }
      | _ => none

/-- The condition of a run: the counters do not wrap, and an inline emission ends at most
an eighth of the ring behind the head whose tier the thread acts on. -/
def Paced : Interaction → Regulated → Prop
  | .produce p, s =>
      (s.produce p).producing.thread.cached < 2 ^ 64 ∧
        (p.isInline = true → s.producing.thread.cached < (s.produce p).producing.thread.cached →
          8 * (s.produce p).producing.thread.cached ≤
            8 * s.acting + s.drained.ring.capacity.size)
  | .beginBatch _, _ | .readSlot, _ | .endBatch, _ | .sampleHead, _ | .setTier, _ => True

instance : ∀ l s, Decidable (Paced l s)
  | .produce _, _ => inferInstanceAs (Decidable (_ ∧ (_ → _ → _)))
  | .beginBatch _, _ | .readSlot, _ | .endBatch, _ | .sampleHead, _ | .setTier, _ => .isTrue trivial

/-- What the engine has read so far. -/
def Reads (s : Regulated) : DrainPhase → Prop
  | .idle => True
  | .copying _ head got =>
      head ≤ s.producing.thread.cached ∧ head ≤ s.drained.ring.tail + s.drained.ring.capacity.size ∧
        ∀ n e, got[n]? = some e → s.producing.log[s.drained.ring.tail + n]? = some e
  | .sampling head => head ≤ s.drained.ring.tail + s.drained.ring.capacity.size

/-- Nothing is lapped: all emitted events are delivered or still in their slots. -/
structure Intact (s : Regulated) : Prop where
  steady : s.producing.Steady
  capacity : s.producing.thread.capacity = s.drained.ring.capacity
  room : s.producing.thread.cached ≤ s.drained.ring.tail + s.drained.ring.capacity.size
  tail_le : s.drained.ring.tail ≤ s.producing.thread.cached
  unlapped : s.drained.ring.lappedEvents = 0 ∧ s.drained.ring.lapEpisodes = 0
  delivered : s.drained.events = s.producing.log.take s.drained.ring.tail
  reads : s.Reads s.engine
  decided : s.backpressure < BP_TIER_SHED_WRITES →
    8 * s.decided < 7 * s.drained.ring.capacity.size + 8 * s.drained.ring.tail
  acting : s.producing.thread.bp < BP_TIER_SHED_WRITES →
    8 * s.acting < 7 * s.drained.ring.capacity.size + 8 * s.drained.ring.tail

variable {s s' : Regulated}

/-- Within a capacity the position is the tail. -/
theorem position_eq {head : ℕ} (h : head ≤ s.drained.ring.tail + s.drained.ring.capacity.size) :
    s.drained.ring.resync head = (s.drained.ring, s.drained.ring.tail) :=
  if_neg (by omega)

theorem intact_init (phase : Phase) (mapped : Bool) (tid : UInt16) (mem : Memory) :
    (init phase mapped tid mem).Intact where
  steady := Producing.steady_init phase mapped tid mem
  capacity := rfl
  room := Nat.zero_le _
  tail_le := le_rfl
  unlapped := ⟨rfl, rfl⟩
  delivered := rfl
  reads := trivial
  decided := fun _ => by
    show 8 * 0 < 7 * 2 ^ 20 + 8 * 0
    omega
  acting := fun _ => by
    show 8 * 0 < 7 * 2 ^ 20 + 8 * 0
    omega

theorem Intact.room_inline (h : s.Intact) {p : Producer} (hpaced : Paced (.produce p) s)
    (hinline : p.isInline = true) :
    (s.produce p).producing.thread.cached ≤
      s.drained.ring.tail + s.drained.ring.capacity.size := by
  have hcached : (s.produce p).producing.thread.cached = s.producing.thread.cached + _ :=
    h.steady.cached_step (s.observed p)
  by_cases hgrown : s.producing.thread.cached < (s.produce p).producing.thread.cached
  · have hopen : s.producing.thread.bp < BP_TIER_SHED_WRITES := by
      by_contra hshed
      rw [events_of_shed (s.observed p) ((isInline_observing p).trans hinline) (by omega)] at hcached
      exact absurd hcached hgrown.ne'
    have hheadroom := h.acting hopen
    have hpace := hpaced.2 hinline hgrown
    omega
  · exact (by omega : _ ≤ s.producing.thread.cached).trans h.room

theorem Intact.produce (h : s.Intact) (p : Producer) (hpaced : Paced (.produce p) s) :
    (s.produce p).Intact := by
  have hcached : (s.produce p).producing.thread.cached = s.producing.thread.cached + _ :=
    h.steady.cached_step (s.observed p)
  have hlog : (s.produce p).producing.log = s.producing.log ++ _ :=
    log_step s.producing (s.observed p)
  have hlength := h.steady.coherent.accounted
  have htail := h.tail_le
  refine ⟨h.steady.step _, (capacity_step h.steady _).trans h.capacity, ?_, ?_, h.unlapped, ?_, ?_,
    h.decided, ?_⟩
  · cases hinline : p.isInline with
    | true => exact h.room_inline hpaced hinline
    | false =>
        have hroom := h.room
        rw [← h.capacity] at hroom
        have hfits := h.steady.room_step p hinline h.tail_le hroom hpaced.1
        rwa [h.capacity] at hfits
  · exact htail.trans (by omega)
  · rw [hlog, List.take_append_of_le_length (by rw [← hlength]; exact htail)]
    exact h.delivered
  · have hreads := h.reads
    show (s.produce p).Reads s.engine
    cases hengine : s.engine with
    | idle => trivial
    | sampling head =>
        rw [hengine] at hreads
        exact hreads
    | copying outLen head got =>
        rw [hengine] at hreads
        obtain ⟨hhead, hroom, hgot⟩ := hreads
        refine ⟨by omega, hroom, fun n e he => ?_⟩
        have hold := hgot n e he
        rw [hlog]
        exact (List.getElem?_append_left (List.getElem?_eq_some_iff.mp hold).choose).trans hold
  · intro hbp
    have hstep := bp_step s.producing (s.observed p)
    simp only [Regulated.produce] at hbp ⊢
    cases hmirrored : (s.observed p).mirrored s.producing with
    | none =>
        rw [hstep, hmirrored] at hbp
        simp only [Option.isSome_none, Bool.false_eq_true, if_false]
        exact h.acting hbp
    | some tier =>
        rw [hstep, hmirrored, eq_of_mirrored_observing hmirrored] at hbp
        simp only [Option.isSome_some, if_true]
        exact h.decided hbp

/-- The slot that is read still holds the event of its place. -/
theorem Intact.slot (h : s.Intact) {p : ℕ} {e : Event} (htail : s.drained.ring.tail ≤ p)
    (he : s.producing.log[p]? = some e) :
    s.producing.thread.slots (s.producing.thread.capacity.index p) = e := by
  have hroom := h.room
  have hentry : (s.producing.log.map Entry.event)[p]? = some (.event e) := by
    rw [List.getElem?_map, he]
    rfl
  exact h.steady.logged.fits p _ hentry (by rw [h.capacity]; omega)

section Batch
variable {outLen head : ℕ} {got : List Event}

theorem getElem?_copy {slot : ℕ → Event} {limit left n runTail k : ℕ} {e : Event}
    (h : (Cursor.copy slot limit left n runTail)[k]? = some e) : slot (n + k) = e := by
  induction left generalizing n runTail k with
  | zero => cases h
  | succ left ih =>
      unfold Cursor.copy at h
      split at h
      · cases h
      · cases k with
        | zero => exact Option.some.inj h
        | succ k =>
            rw [← ih h]
            congr 1
            omega

theorem take_append_of_getElem? {xs ys : List Event} {t : ℕ}
    (h : ∀ k e, xs[k]? = some e → ys[t + k]? = some e) :
    ys.take (t + xs.length) = ys.take t ++ xs := by
  rw [List.take_add]
  congr 1
  refine List.ext_getElem? fun k => ?_
  by_cases hk : k < xs.length
  · rw [List.getElem?_take_of_lt hk, List.getElem?_drop, List.getElem?_eq_getElem hk]
    exact h k _ (List.getElem?_eq_getElem hk)
  · rw [List.getElem?_take_eq_none (by omega), List.getElem?_eq_none (by omega)]

/-- A slot that the loop reads is the event of its place. -/
theorem Intact.readSlot (h : s.Intact) (hengine : s.engine = .copying outLen head got)
    (hlimit : got.length < s.limit outLen head) :
    let e := s.producing.thread.slots
      (s.producing.thread.capacity.index (s.position head + got.length))
    ({ s with engine := .copying outLen head (got ++ [e]) } : Regulated).Intact := by
  have hreads := h.reads
  rw [hengine] at hreads
  obtain ⟨hhead, hroom, hgot⟩ := hreads
  have hposition : s.position head = s.drained.ring.tail := congrArg Prod.snd (position_eq hroom)
  have hlength := h.steady.coherent.accounted
  rw [limit, hposition] at hlimit
  have hplace : s.drained.ring.tail + got.length < s.producing.log.length := by omega
  have hslot := h.slot (Nat.le_add_right _ got.length) (List.getElem?_eq_getElem hplace)
  refine ⟨h.steady, h.capacity, h.room, h.tail_le, h.unlapped, h.delivered, ⟨hhead, hroom, ?_⟩,
    h.decided, h.acting⟩
  intro n e he
  rw [hposition, hslot] at he
  by_cases hn : n < got.length
  · rw [List.getElem?_append_left hn] at he
    exact hgot n e he
  · have hlast : n = got.length := by
      have hlt := (List.getElem?_eq_some_iff.mp he).choose
      rw [List.length_append, List.length_singleton] at hlt
      omega
    subst hlast
    rw [List.getElem?_append_right le_rfl, Nat.sub_self] at he
    rw [← he]
    exact List.getElem?_eq_getElem hplace

/-- A call delivers the events from the tail on and moves the tail behind them. -/
theorem Intact.endBatch (h : s.Intact) (hengine : s.engine = .copying outLen head got)
    (hlimit : s.limit outLen head ≤ got.length) :
    ({ s with
        engine := .idle
        drained := s.drained.call
          ⟨outLen, head, fun n => got.getD n .zero, s.producing.thread.head⟩ } : Regulated).Intact := by
  have hreads := h.reads
  rw [hengine] at hreads
  obtain ⟨hhead, hroom, hgot⟩ := hreads
  have hresync := position_eq hroom
  have hlength := h.steady.coherent.accounted
  have hpublished : s.producing.thread.head ≤
      s.drained.ring.tail + s.drained.ring.capacity.size := h.steady.logged.head_le.trans h.room
  let c : Call := ⟨outLen, head, fun n => got.getD n .zero, s.producing.thread.head⟩
  have hcall : ∃ out, s.drained.ring.consumeBatch c =
      ({ s.drained.ring with tail := s.drained.ring.tail + out.length }, out) ∧
        s.drained.ring.tail + out.length ≤ s.producing.thread.cached ∧
        ∀ k e, out[k]? = some e → s.producing.log[s.drained.ring.tail + k]? = some e := by
    unfold Cursor.consumeBatch
    split
    · rw [hresync]
      exact ⟨[], rfl, h.tail_le, fun k e he => by cases he⟩
    · have hcount : s.drained.ring.limit c ≤ got.length := hlimit
      have hlimit_eq : s.drained.ring.limit c = min (head - s.drained.ring.tail) outLen := by
        rw [Cursor.limit, hresync]
      have hcopied := Cursor.length_copy_le c.slot (s.drained.ring.limit c)
        (s.drained.ring.limit c) 0 0
      rw [hresync]
      have hunlapped : ¬ s.drained.ring.capacity.size < c.head2 - s.drained.ring.tail := by
        show ¬ s.drained.ring.capacity.size <
          s.producing.thread.head - s.drained.ring.tail
        omega
      refine ⟨_, if_neg hunlapped, by omega, fun k e he => ?_⟩
      have hk := (List.getElem?_eq_some_iff.mp he).choose
      have hslot := getElem?_copy he
      have hread : got[k]? = some e := by
        rw [← hslot, Nat.zero_add, List.getElem?_eq_getElem (by omega)]
        simp only [c, List.getD_eq_getElem?_getD, List.getElem?_eq_getElem (by omega : k < got.length),
          Option.getD_some]
      exact hgot k e hread
  obtain ⟨out, hconsume, hbound, hout⟩ := hcall
  have hdrained : s.drained.call c =
      ⟨{ s.drained.ring with tail := s.drained.ring.tail + out.length },
        s.drained.events ++ out, s.drained.ring.lastHead c⟩ := by
    rw [Drained.call, hconsume]
  show ({ s with engine := .idle, drained := s.drained.call c } : Regulated).Intact
  rw [hdrained]
  refine ⟨h.steady, h.capacity, h.room.trans (by simp only; omega), hbound, h.unlapped, ?_, trivial,
    fun hbp => (h.decided hbp).trans_le (by simp only; omega),
    fun hbp => (h.acting hbp).trans_le (by simp only; omega)⟩
  simp only
  rw [take_append_of_getElem? hout, h.delivered]

end Batch

theorem Intact.step {l : Interaction} (h : s.Intact) (hpaced : Paced l s) (hs : step l s = some s') :
    s'.Intact := by
  have hhead := h.steady.logged.head_le
  have hroom := h.room
  cases l with
  | produce p =>
      obtain rfl := Option.some.inj hs
      exact h.produce p hpaced
  | beginBatch outLen =>
      simp only [Regulated.step] at hs
      split at hs
      · obtain rfl := Option.some.inj hs
        exact { h with reads := ⟨hhead, hhead.trans hroom, fun n e he => by cases he⟩ }
      · cases hs
  | readSlot =>
      simp only [Regulated.step] at hs
      split at hs
      · split at hs
        · obtain rfl := Option.some.inj hs
          exact h.readSlot ‹_› ‹_›
        · cases hs
      · cases hs
  | endBatch =>
      simp only [Regulated.step] at hs
      split at hs
      · split at hs
        · obtain rfl := Option.some.inj hs
          exact h.endBatch ‹_› ‹_›
        · cases hs
      · cases hs
  | sampleHead =>
      simp only [Regulated.step] at hs
      split at hs
      · obtain rfl := Option.some.inj hs
        exact { h with reads := hhead.trans hroom }
      · cases hs
  | setTier =>
      simp only [Regulated.step] at hs
      split at hs
      · rename_i head hengine
        obtain rfl := Option.some.inj hs
        have hreads := h.reads
        rw [hengine] at hreads
        exact { h with reads := trivial, decided := fun hbp => headroom_of_tier hreads hbp }
      · cases hs

/-- Whatever the thread emits and however the engine's reads fall between, in a paced run
nothing is lapped: the engine has delivered the first events of the log in order, and each
later one is still in its slot. -/
theorem paced_run_unlapped {phase : Phase} {mapped : Bool} {tid : UInt16} {mem : Memory}
    (h : Reach step Paced (init phase mapped tid mem) s) :
    s.drained.ring.lappedEvents = 0 ∧ s.drained.ring.lapEpisodes = 0 ∧
      s.drained.events = s.producing.log.take s.drained.ring.tail ∧
      s.producing.log.length ≤ s.drained.ring.tail + s.drained.ring.capacity.size ∧
      ∀ p e, s.drained.ring.tail ≤ p → s.producing.log[p]? = some e →
        s.producing.thread.slots (s.producing.thread.capacity.index p) = e := by
  have hintact : s.Intact := h.invariant (intact_init phase mapped tid mem)
    fun l u v hu hok hs => hu.step hok hs
  have hroom := hintact.room
  rw [hintact.steady.coherent.accounted] at hroom
  exact ⟨hintact.unlapped.1, hintact.unlapped.2, hintact.delivered, hroom,
    fun p e htail he => hintact.slot htail he⟩

/-- A store that is published, sampled and drained, and one behind it. -/
def storesDrained : List Interaction :=
  [.produce Producing.storesByte, .produce (.blockEnd .plain), .sampleHead,
    .produce Producing.storesByte, .setTier, .produce (.blockEnd .plain), .beginBatch 1, .readSlot,
    .produce Producing.storesByte, .endBatch]

theorem stores_drained_unlapped : ∃ s, Transition.exec (guarded step Paced) storesDrained
    (init .trace true 7 fun _ => some 0) = some s ∧ s.drained.ring.tail = 1 ∧
      s.producing.log.length = 3 ∧ s.drained.ring.lappedEvents = 0 := by
  have hends : (Transition.exec (guarded step Paced) storesDrained
      (init .trace true 7 fun _ => some 0)).map (fun s => (s.drained.ring.tail, s.producing.log.length)) =
        some (1, 3) := by decide +kernel
  obtain ⟨s, hrun, hs⟩ := Option.map_eq_some_iff.mp hends
  obtain ⟨htail, hlength⟩ := Prod.mk.inj hs
  exact ⟨s, hrun, htail, hlength, (paced_run_unlapped (.of_guarded hrun)).1⟩

end Regulated

end Rtmap.Tracer
