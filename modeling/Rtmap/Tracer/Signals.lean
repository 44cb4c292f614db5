import Rtmap.Tracer.HeadCache

/-!
# Stores interrupted by signal handlers

The code that runs between the halves of a store is a tree: handlers execute
stores of their own, with handlers between their halves in turn. `Guarded` is
what the nesting guard is there for, `guarded_iff` when it holds: the guard is
cleared by the first nested second half, and the scratch pad has a single slot.
-/
namespace Rtmap.Tracer
open Rtmap.Ring

/-- Code of one thread: a store with the code between its halves, the entry and the end of a
block, clean calls, the hooks of a system call, a buffered read, and application code. -/
inductive Code where
  | store (w : PreWrite) (env : Env) (body : List Code)
  | bbEntry (pc : UInt64) (rip : UInt32) (env : Env)
  | call (c : CleanCall) (env : Env)
  | syscall (c : Syscall) (env : Env)
  | read (addr : UInt64) (size : UInt32) (env : Env)
  | flush (env : Env)
  | app (effect : Memory → Memory)

def Code.isStore : Code → Bool
  | .store .. => true
  | _ => false

mutual

def Code.run : Code → Thread → Thread
  | .store w env body, t => (runAll body (t.emitPreWrite w env)).emitPostWrite w.post
  | .bbEntry pc rip env, t => t.emitBbEntry pc rip env
  | .call c env, t => c.run env t
  | .syscall c env, t => t.eventPreSyscall.eventPostSyscall c env
  | .read addr size env, t => t.atMemReadBuf addr size env
  | .flush env, t => t.flushHeadCache env
  | .app effect, t => { t with mem := effect t.mem }

def runAll : List Code → Thread → Thread
  | [], t => t
  | c :: cs, t => runAll cs (c.run t)

end

/-- The published slots that the step does not lap stay as they are. -/
def Untouched (t t' : Thread) : Prop :=
  ∀ p, p < t.head → t.cached < p + t.capacity.size → t'.cached ≤ p + t.capacity.size →
    t'.slots (t.capacity.index p) = t.slots (t.capacity.index p)

/-- With `t` before the first half, `t₁` after it and `t₂` before the second: the
second half completes the slot that the first one filled, at the position it was
filled for, or the store is counted as dropped. -/
def Completes (w : PreWrite) (t t₁ t₂ : Thread) : Prop :=
  match t₂.scratch1 with
  | some i =>
      t₁.scratch1 = some i ∧ i = t.capacity.index t.cached ∧ t₂.cached = t.cached ∧
        t₂.slots i = t₁.slots i ∧ t₂.scratch0 = w.ea
  | none => t₁.reentrantDrops = t.reentrantDrops + 1

mutual

/-- No slot is modified once published, no advance covers a slot that its own
store did not write, and every store that is not recorded is counted. -/
def Code.Guarded : Code → Thread → Prop
  | .store w env body, t =>
      Untouched t (t.emitPreWrite w env) ∧
      AllGuarded body (t.emitPreWrite w env) ∧
      Completes w t (t.emitPreWrite w env) (runAll body (t.emitPreWrite w env)) ∧
      Untouched (runAll body (t.emitPreWrite w env))
        ((runAll body (t.emitPreWrite w env)).emitPostWrite w.post)
  | c, t => Untouched t (c.run t)

def AllGuarded : List Code → Thread → Prop
  | [], _ => True
  | c :: cs, t => c.Guarded t ∧ AllGuarded cs (c.run t)

end

/-- The events that the code emits, stores apart: what its gates let through and the ring has room
for. -/
def Code.events : Code → Thread → List Event
  | .bbEntry pc rip env, t => t.bbEvents pc rip env
  | .call c env, t => c.events env t
  | .syscall c env, t => if env.phase = .boot then [] else ungated (c.pushes t) env t
  | .store .. , _ | .read .., _ | .flush _, _ | .app _, _ => []

/-- The code executes no instrumented store and emits no event. -/
def AllQuiet : List Code → Thread → Prop
  | [], _ => True
  | c :: cs, t => c.isStore = false ∧ c.events t = [] ∧ AllQuiet cs (c.run t)

section Passes
variable {t t' : Thread} {env : Env}

/-- The thread stores the events from the cached head on, and a store in flight stays where it
is. -/
structure Passes (t t' : Thread) (events : List Event) : Prop where
  capacity : t'.capacity = t.capacity
  slots : t'.slots = storeRun t.capacity t.slots t.cached events
  cached : t'.cached = t.cached + events.length
  head_le : t'.head ≤ t'.cached
  scratch0 : t'.scratch0 = t.scratch0
  scratch1 : t'.scratch1 = t.scratch1
  nesting : t'.nesting = t.nesting

theorem passes_refl (h : t.head ≤ t.cached) : Passes t t [] := ⟨rfl, rfl, rfl, h, rfl, rfl, rfl⟩

theorem passes_cleanCall (h : t.head ≤ t.cached) (pushes : Thread → List Thread.Push) (env : Env) :
    Passes t (t.cleanCall pushes env) (pushed pushes env t) := by
  rcases cleanCall_cases pushes env t with ⟨hpushed, hkeep⟩ | ⟨seq, hcall⟩
  · rw [hpushed, hkeep]
    exact passes_refl h
  · rw [hcall]
    exact ⟨rfl, rfl, rfl, le_rfl, rfl, rfl, rfl⟩

theorem passes_flushReadBuf (h : t.head ≤ t.cached) (env : Env) :
    Passes t (t.flushReadBuf env) (pushed Thread.readPushes env t) := by
  rcases flushReadBuf_cases env t with ⟨hpushed, hkeep | hkeep⟩ | ⟨seq, hflush⟩
  · rw [hpushed, hkeep]
    exact passes_refl h
  · rw [hpushed, hkeep]
    exact ⟨rfl, rfl, rfl, h, rfl, rfl, rfl⟩
  · rw [hflush]
    exact ⟨rfl, rfl, rfl, le_rfl, rfl, rfl, rfl⟩

theorem passes_wrapped (h : t.head ≤ t.cached) (pushes : Thread → List Thread.Push) (env : Env) :
    Passes t (t.wrapped pushes env) (ungated (pushes t) env t) := by
  cases hmapped : t.mapped with
  | false =>
      simp only [Thread.wrapped, ungated, hmapped, Bool.not_false, if_true]
      exact passes_refl h
  | true =>
      obtain ⟨seq, heq⟩ := push_eq pushes env hmapped
      simp only [Thread.wrapped, ungated, hmapped, Bool.not_true, Bool.false_eq_true, if_false, heq]
      exact ⟨rfl, rfl, rfl, le_rfl, rfl, rfl, rfl⟩

theorem passes_call (h : t.head ≤ t.cached) (c : CleanCall) (env : Env) :
    Passes t (c.run env t) (c.events env t) := by
  have hwrapper {pushes : Thread → List Thread.Push} {p : Prop} [Decidable p] :
      Passes t (if p then t else t.wrapped pushes env)
        (if p then [] else ungated (pushes t) env t) := by
    split
    · exact passes_refl h
    · exact passes_wrapped h pushes env
  cases c with
  | atCall callee frameBase => exact passes_cleanCall h _ env
  | atReturn retaddr => exact passes_cleanCall h _ env
  | atTailCall target frameBase => exact passes_cleanCall h _ env
  | atReload src size reg => exact passes_cleanCall h _ env
  | flushReadBuf => exact passes_flushReadBuf h env
  | wrapMallocPost ret size caller => exact hwrapper
  | wrapReallocPost ret size caller => exact hwrapper
  | wrapFreePre ptr => exact hwrapper
  | wrapReallocPre ptr =>
      simp only [CleanCall.run, Thread.wrapReallocPre, ne_eq, ite_not]
      exact hwrapper

theorem passes_syscall (h : t.head ≤ t.cached) (c : Syscall) (env : Env) :
    Passes t (t.eventPreSyscall.eventPostSyscall c env)
      (if env.phase = .boot then [] else ungated (c.pushes t) env t) := by
  cases hmapped : t.mapped with
  | false =>
      have hpre : t.eventPreSyscall = t := by
        simp only [Thread.eventPreSyscall, hmapped, Bool.not_false, if_true]
      have hpost : t.eventPostSyscall c env = t := by
        simp only [Thread.eventPostSyscall, hmapped, Bool.not_false, if_true, ite_self]
      rw [hpre, hpost]
      simp only [ungated, hmapped, Bool.not_false, if_true, ite_self]
      exact passes_refl h
  | true =>
      have hquiet : Passes t { t with head := t.cached } [] :=
        ⟨rfl, rfl, rfl, le_rfl, rfl, rfl, rfl⟩
      have hpushes : c.pushes { t with head := t.cached } = c.pushes t := by cases c <;> rfl
      rw [Producing.eventPreSyscall_eq hmapped, Thread.eventPostSyscall, hpushes]
      split
      · exact hquiet
      · have hopen : ungated (c.pushes t) env t =
            (Thread.admitted env t.capacity.size t.cached t.tlsSeq 0 (c.pushes t)).flatMap
              Op.slots := by
          simp only [ungated, hmapped, Bool.not_true, Bool.false_eq_true, if_false]
        rw [hopen]
        split
        · rename_i hnone
          rw [hnone]
          exact hquiet
        · obtain ⟨seq, heq⟩ := Thread.pushAll_eq env 0 (c.pushes t) { t with head := t.cached }
          rw [heq]
          simp only [Thread.syncHeadCache, hmapped, Bool.not_true, Bool.false_eq_true, if_false,
            if_true]
          exact ⟨rfl, rfl, rfl, le_rfl, rfl, rfl, rfl⟩

theorem passes_bbEntry (h : t.head ≤ t.cached) (pc : UInt64) (rip : UInt32) (env : Env) :
    Passes t (t.emitBbEntry pc rip env) (t.bbEvents pc rip env) := by
  unfold Thread.emitBbEntry Thread.bbEvents
  by_cases htrace : env.phase = .trace
  · by_cases hmapped : t.mapped = true
    · by_cases hbp : t.bp = 0
      · simp only [htrace, hmapped, hbp, ne_eq, not_true_eq_false, Bool.not_true, Bool.false_eq_true,
          if_false, or_self, Bool.true_eq_false]
        refine ⟨rfl, rfl, rfl, ?_, rfl, rfl, rfl⟩
        rcases Producing.head_bumpHead { t with
          slots := Function.update t.slots (t.capacity.index t.cached)
            ((Op.bbEntry pc t.tid t.seq rip).slot 0)
          seq := t.seq + 1 } with hhead | hhead
        · exact hhead.le.trans (h.trans (Nat.le_succ _))
        · exact hhead.le
      · simp only [htrace, hmapped, hbp, ne_eq, not_true_eq_false, Bool.not_true, Bool.false_eq_true,
          if_false, not_false_eq_true, or_true, if_true]
        exact ⟨rfl, rfl, rfl, h, rfl, rfl, rfl⟩
    · rw [Bool.not_eq_true] at hmapped
      simp only [htrace, hmapped, ne_eq, not_true_eq_false, Bool.not_false, if_false, if_true,
        true_or, or_true]
      exact passes_refl h
  · simp only [ne_eq, htrace, not_false_eq_true, if_true, true_or]
    exact passes_refl h

/-- What code other than a store does. -/
theorem Code.passes {c : Code} (hc : c.isStore = false) (h : t.head ≤ t.cached) :
    Passes t (c.run t) (c.events t) := by
  cases c with
  | store w env body => cases hc
  | bbEntry pc rip env => exact passes_bbEntry h pc rip env
  | call c env => exact passes_call h c env
  | syscall c env => exact passes_syscall h c env
  | read addr size env => exact ⟨rfl, rfl, rfl, h, rfl, rfl, rfl⟩
  | flush env =>
      simp only [Code.run, Thread.flushHeadCache]
      split
      · exact ⟨rfl, rfl, rfl, le_rfl, rfl, rfl, rfl⟩
      · exact passes_refl h
  | app effect => exact ⟨rfl, rfl, rfl, h, rfl, rfl, rfl⟩

end Passes

section Post
variable (p : PostWrite) (t : Thread)

theorem nesting_emitPostWrite : (t.emitPostWrite p).nesting = false := by
  unfold Thread.emitPostWrite
  split <;> rfl

theorem cached_le_emitPostWrite :
    t.cached ≤ (t.emitPostWrite p).cached ∧
      (t.scratch1 ≠ none → t.cached < (t.emitPostWrite p).cached) := by
  unfold Thread.emitPostWrite
  split
  · rename_i hnone
    exact ⟨le_rfl, fun h => absurd hnone h⟩
  · rename_i i _
    obtain ⟨-, -, -, hle⟩ := t.captureValue_frame p i
    exact ⟨Nat.le_succ_of_le hle, fun _ => Nat.lt_succ_of_le hle⟩

theorem scratch1_emitPostWrite : (t.emitPostWrite p).scratch1 = t.scratch1 := by
  unfold Thread.emitPostWrite
  split
  · rfl
  · rename_i i _
    exact (t.captureValue_frame p i).1

theorem head_le_emitPostWrite (h : t.head ≤ t.cached) :
    (t.emitPostWrite p).head ≤ (t.emitPostWrite p).cached := by
  unfold Thread.emitPostWrite
  split
  · exact h
  · rename_i i _
    obtain ⟨-, hhead, -, hle⟩ := t.captureValue_frame p i
    simp only [Thread.bumpHead, hhead]
    split
    · exact le_rfl
    · exact h.trans (Nat.le_succ_of_le hle)

end Post

/-- Where no store is in flight: nothing arms the guard, and nothing past the
cached head is published. -/
structure Outermost (t : Thread) : Prop where
  nesting : t.nesting = false
  head_le : t.head ≤ t.cached

theorem cached_emitPreWrite (w : PreWrite) (env : Env) (t : Thread) :
    (t.emitPreWrite w env).cached = t.cached ∧ (t.emitPreWrite w env).head = t.head := by
  rcases t.emitPreWrite_cases w env with ⟨_, _, _, h⟩ | h <;> rw [h] <;> exact ⟨rfl, rfl⟩

theorem passes_monotone {t t' : Thread} {events : List Event} (h : Passes t t' events) :
    t.cached ≤ t'.cached ∧ t'.head ≤ t'.cached :=
  ⟨h.cached ▸ Nat.le_add_right .., h.head_le⟩

mutual

/-- Code moves the cached head forward only, and the published head up to it. -/
theorem Code.run_monotone : ∀ (c : Code) (t : Thread), t.head ≤ t.cached →
    t.cached ≤ (c.run t).cached ∧ (c.run t).head ≤ (c.run t).cached
  | .store w env body, t, h => by
      obtain ⟨hcached, hhead⟩ := cached_emitPreWrite w env t
      obtain ⟨hle, hbody⟩ := runAll_monotone body (t.emitPreWrite w env) (by rwa [hhead, hcached])
      rw [hcached] at hle
      exact ⟨hle.trans (cached_le_emitPostWrite _ _).1, head_le_emitPostWrite _ _ hbody⟩
  | .bbEntry .., t, h => passes_monotone (Code.passes rfl h)
  | .call .., t, h => passes_monotone (Code.passes rfl h)
  | .syscall .., t, h => passes_monotone (Code.passes rfl h)
  | .read .., t, h => passes_monotone (Code.passes rfl h)
  | .flush _, t, h => passes_monotone (Code.passes rfl h)
  | .app _, t, h => passes_monotone (Code.passes rfl h)

theorem runAll_monotone : ∀ (cs : List Code) (t : Thread), t.head ≤ t.cached →
    t.cached ≤ (runAll cs t).cached ∧ (runAll cs t).head ≤ (runAll cs t).cached
  | [], _, h => ⟨le_rfl, h⟩
  | c :: cs, t, h => by
      obtain ⟨hle, hc⟩ := c.run_monotone t h
      obtain ⟨hle', hcs⟩ := runAll_monotone cs (c.run t) hc
      exact ⟨hle.trans hle', hcs⟩

end

/-- Whatever runs from a thread with no store in flight ends with none. -/
theorem Outermost.runAll {t : Thread} (h : Outermost t) (cs : List Code) :
    Outermost (runAll cs t) := by
  induction cs generalizing t with
  | nil => exact h
  | cons c cs ih =>
      refine ih ⟨?_, (c.run_monotone t h.head_le).2⟩
      cases hc : c.isStore with
      | true =>
          cases c with
          | store w env body => exact nesting_emitPostWrite _ _
          | _ => cases hc
      | false => exact (Code.passes hc h.head_le).nesting.trans h.nesting

/-- A nested store leaves the scratch pad empty or has moved the cached head. -/
theorem Code.run_store {c : Code} (hc : c.isStore = true) {t : Thread} (h : t.head ≤ t.cached) :
    (c.run t).scratch1 = none ∨ t.cached < (c.run t).cached := by
  cases c with
  | store w env body =>
      obtain ⟨hcached, hhead⟩ := cached_emitPreWrite w env t
      obtain ⟨hle, -⟩ := runAll_monotone body (t.emitPreWrite w env) (by rwa [hhead, hcached])
      rw [hcached] at hle
      simp only [Code.run, scratch1_emitPostWrite]
      by_cases hnone : (Tracer.runAll body (t.emitPreWrite w env)).scratch1 = none
      · exact .inl hnone
      · exact .inr (hle.trans_lt ((cached_le_emitPostWrite _ _).2 hnone))
  | _ => cases hc

/-- What quiet code between the halves of a store leaves of the thread. -/
structure Kept (t t' : Thread) : Prop where
  capacity : t'.capacity = t.capacity
  slots : t'.slots = t.slots
  cached : t'.cached = t.cached
  scratch0 : t'.scratch0 = t.scratch0
  scratch1 : t'.scratch1 = t.scratch1

theorem Code.run_kept {c : Code} (hc : c.isStore = false) {t : Thread} (h : t.head ≤ t.cached)
    (hquiet : c.events t = []) : Kept t (c.run t) := by
  have hpasses := Code.passes hc h
  rw [hquiet] at hpasses
  exact ⟨hpasses.capacity, hpasses.slots, hpasses.cached, hpasses.scratch0, hpasses.scratch1⟩

theorem Code.guarded_of_kept {c : Code} (hc : c.isStore = false) {t : Thread}
    (h : Kept t (c.run t)) : c.Guarded t := by
  have huntouched : Untouched t (c.run t) := fun p _ _ _ => by rw [h.slots]
  cases c with
  | store w env body => cases hc
  | _ => exact huntouched

theorem runAll_kept {cs : List Code} {t : Thread} (h : t.head ≤ t.cached) (hcs : AllQuiet cs t) :
    Kept t (runAll cs t) ∧ AllGuarded cs t := by
  induction cs generalizing t with
  | nil => exact ⟨⟨rfl, rfl, rfl, rfl, rfl⟩, trivial⟩
  | cons c cs ih =>
      obtain ⟨hstore, hevents, hrest⟩ := hcs
      have hc := Code.run_kept hstore h hevents
      obtain ⟨hkept, hguarded⟩ := ih (c.run_monotone t h).2 hrest
      exact ⟨⟨hkept.capacity.trans hc.capacity, hkept.slots.trans hc.slots,
        hkept.cached.trans hc.cached, hkept.scratch0.trans hc.scratch0,
        hkept.scratch1.trans hc.scratch1⟩, Code.guarded_of_kept hstore hc, hguarded⟩

/-- Code that is not quiet leaves the scratch pad empty or has moved the cached head. -/
theorem Code.run_loud {c : Code} {t : Thread} (h : t.head ≤ t.cached)
    (hc : ¬(c.isStore = false ∧ c.events t = [])) :
    (c.run t).scratch1 = none ∨ t.cached < (c.run t).cached := by
  cases hstore : c.isStore with
  | true => exact Code.run_store hstore h
  | false =>
      have hevents : c.events t ≠ [] := fun hnone => hc ⟨hstore, hnone⟩
      have hlength := List.length_pos_iff.mpr hevents
      have hcached := (Code.passes hstore h).cached
      exact .inr (by omega)

theorem runAll_loud {cs : List Code} {t : Thread} (h : t.head ≤ t.cached) (hcs : ¬AllQuiet cs t) :
    (runAll cs t).scratch1 = none ∨ t.cached < (runAll cs t).cached := by
  induction cs generalizing t with
  | nil => exact absurd trivial hcs
  | cons c cs ih =>
      obtain ⟨hle, hhead⟩ := c.run_monotone t h
      obtain ⟨hle', -⟩ := runAll_monotone cs (c.run t) hhead
      by_cases hrest : AllQuiet cs (c.run t)
      · have hc : ¬(c.isStore = false ∧ c.events t = []) :=
          fun hquiet => hcs ⟨hquiet.1, hquiet.2, hrest⟩
        obtain ⟨hkept, -⟩ := runAll_kept hhead hrest
        rcases Code.run_loud h hc with hnone | hlt
        · exact .inl (hkept.scratch1.trans hnone)
        · exact .inr (hlt.trans_le hle')
      · rcases ih hhead hrest with hnone | hlt
        · exact .inl hnone
        · exact .inr (hle.trans_lt hlt)

/-- The first half of a store that nothing interrupts fills a slot. -/
def Records (env : Env) (t : Thread) : Prop :=
  env.phase = .trace ∧ t.mapped = true ∧ t.bp < BP_TIER_SHED_WRITES

theorem emitPreWrite_filled {w : PreWrite} {env : Env} {t : Thread} (h : t.nesting = false)
    (hr : Records env t) : t.emitPreWrite w env = { t with
      scratch0 := w.ea
      slots := Function.update t.slots (t.capacity.index t.cached)
        (t.preWritten w (t.slots (t.capacity.index t.cached)))
      scratch1 := some (t.capacity.index t.cached)
      nesting := true } := by
  obtain ⟨hphase, hmapped, hbp⟩ := hr
  have hnest : ¬t.nesting = true := by simp [h]
  have hunmapped : ¬(!t.mapped) = true := by simp [hmapped]
  rw [Thread.emitPreWrite, if_neg (not_not.mpr hphase), if_neg hnest, if_neg hunmapped,
    if_neg (Nat.not_le.mpr hbp)]

theorem emitPreWrite_dropped {w : PreWrite} {env : Env} {t : Thread} (h : t.nesting = false)
    (hr : ¬Records env t) : (t.emitPreWrite w env).scratch1 = none ∧
      (t.emitPreWrite w env).reentrantDrops = t.reentrantDrops := by
  have hnest : ¬t.nesting = true := by simp [h]
  unfold Thread.emitPreWrite
  rw [if_neg hnest]
  split
  · exact ⟨rfl, rfl⟩
  · split
    · exact ⟨rfl, rfl⟩
    · split
      · exact ⟨rfl, rfl⟩
      · rename_i hphase hunmapped hbp
        refine absurd ⟨not_not.mp hphase, ?_, Nat.not_le.mp hbp⟩ hr
        simpa using hunmapped

theorem untouched_emitPostWrite {p : PostWrite} {t : Thread} (h : t.head ≤ t.cached)
    (hs1 : t.scratch1 = some (t.capacity.index t.cached)) : Untouched t (t.emitPostWrite p) := by
  obtain ⟨e, rest, hslots, hcached⟩ := t.captureValue_run p hs1
  intro q hq _ hlap
  simp only [Thread.emitPostWrite, hs1, Thread.bumpHead, hcached] at hlap ⊢
  rw [hslots]
  exact storeRun_before (e :: rest) (by omega) (by simpa [Nat.add_assoc] using hlap)

theorem completes_some {w : PreWrite} {t t₁ t₂ : Thread} (h : Completes w t t₁ t₂)
    (hdrops : t₁.reentrantDrops = t.reentrantDrops) :
    ∃ i, t₁.scratch1 = some i ∧ t₂.scratch1 = some i ∧ t₂.cached = t.cached := by
  unfold Completes at h
  split at h
  · rename_i i hs1
    exact ⟨i, h.1, hs1, h.2.2.1⟩
  · omega

theorem guarded_of_quiet {t : Thread} (h : Outermost t) {w : PreWrite} {env : Env}
    {body : List Code} (hr : Records env t) (hbody : AllQuiet body (t.emitPreWrite w env)) :
    (Code.store w env body).Guarded t := by
  have hfill := emitPreWrite_filled (w := w) h.nesting hr
  obtain ⟨hcached, hhead⟩ := cached_emitPreWrite w env t
  have hfront : (t.emitPreWrite w env).head ≤ (t.emitPreWrite w env).cached := by
    rw [hhead, hcached]
    exact h.head_le
  obtain ⟨hkept, hguarded⟩ := runAll_kept hfront hbody
  obtain ⟨-, hle⟩ := runAll_monotone body (t.emitPreWrite w env) hfront
  have hs1 : (runAll body (t.emitPreWrite w env)).scratch1 =
      some (t.capacity.index t.cached) := by rw [hkept.scratch1, hfill]
  refine ⟨?_, hguarded, ?_, untouched_emitPostWrite hle ?_⟩
  · intro p hp hlap _
    have hlt : p < t.cached := hp.trans_le h.head_le
    rw [hfill]
    exact Function.update_of_ne (Capacity.index_ne hlt hlap) ..
  · simp only [Completes, hs1]
    refine ⟨by rw [hfill], trivial, hkept.cached.trans hcached, ?_, ?_⟩
    · rw [hkept.slots]
    · rw [hkept.scratch0, hfill]
  · rw [hs1, hkept.capacity, hkept.cached, hfill]

theorem guarded_iff_of_outermost {t : Thread} (h : Outermost t) (w : PreWrite) (env : Env)
    (body : List Code) :
    (Code.store w env body).Guarded t ↔
      Records env t ∧ AllQuiet body (t.emitPreWrite w env) := by
  constructor
  · rintro ⟨-, -, hcompletes, -⟩
    by_cases hr : Records env t
    · refine ⟨hr, ?_⟩
      have hfill := emitPreWrite_filled (w := w) h.nesting hr
      obtain ⟨hcached, hhead⟩ := cached_emitPreWrite w env t
      obtain ⟨i, -, hs1, hkept⟩ := completes_some hcompletes (by rw [hfill])
      by_contra hloud
      have hmoved := runAll_loud (t := t.emitPreWrite w env)
        (by rw [hhead, hcached]; exact h.head_le) hloud
      rw [hs1, hkept, hcached] at hmoved
      rcases hmoved with hnone | hlt
      · cases hnone
      · exact absurd hlt (lt_irrefl _)
    · obtain ⟨hnone, hdrops⟩ := emitPreWrite_dropped (w := w) h.nesting hr
      obtain ⟨i, hs1, -⟩ := completes_some hcompletes hdrops
      rw [hnone] at hs1
      cases hs1
  · rintro ⟨hr, hbody⟩
    exact guarded_of_quiet h hr hbody

/-- After any run of a thread, a store is guarded exactly when the tracer records it and the code
between its halves executes no instrumented store and emits no event. -/
theorem guarded_iff (capacity : Capacity) (mapped : Bool) (tid : UInt16) (mem : Memory)
    (history : List Code) (w : PreWrite) (env : Env) (body : List Code) :
    (Code.store w env body).Guarded (runAll history (.start capacity mapped tid mem)) ↔
      Records env (runAll history (.start capacity mapped tid mem)) ∧
        AllQuiet body ((runAll history (.start capacity mapped tid mem)).emitPreWrite w env) :=
  guarded_iff_of_outermost (Outermost.runAll ⟨rfl, le_rfl⟩ history) w env body

/-- A byte store at `ea` of a register. -/
def byteStore (ea : UInt64) : PreWrite := ⟨ea, 1, 0, none, false⟩

/-- A handler that stores to 0x2000 and 0x3000, and the interrupted instruction,
which then stores 2 to 0x3000. -/
def handlerBody : List Code :=
  [.store (byteStore 0x2000) .plain [], .store (byteStore 0x3000) .plain [], .flush .plain,
    .app fun m => Function.update m 0x3000 (some 2)]

/-- The handler's first store is dropped and disarms the guard, the second one takes
the slot of the interrupted store. That one then modifies the slot after its
publication and publishes the next slot, which nobody wrote; one store of three is
counted as dropped. -/
theorem handler_steals_slot :
    let t := Thread.start THREAD_RING_CAPACITY true 7 fun _ => some 0
    let t₂ := runAll handlerBody (t.emitPreWrite (byteStore 0x3000) .plain)
    let t₃ := (Code.store (byteStore 0x3000) .plain handlerBody).run t
    Outermost t ∧ Records .plain t ∧ t₂.head = 1 ∧ (t₂.slots 0).value = 0 ∧
      (t₃.slots 0).value = 2 ∧ t₃.cached = 2 ∧ (t₃.slots 1).addr = 0 ∧ t₃.reentrantDrops = 1 ∧
      ¬(Code.store (byteStore 0x3000) .plain handlerBody).Guarded t := by
  refine ⟨⟨rfl, le_rfl⟩, ⟨rfl, rfl, by decide⟩, by decide +kernel, by decide +kernel,
    by decide +kernel, by decide +kernel, by decide +kernel, by decide +kernel, ?_⟩
  rintro ⟨-, -, hcompletes, -⟩
  obtain ⟨i, -, -, hkept⟩ := completes_some hcompletes rfl
  exact absurd hkept (by decide +kernel)

end Rtmap.Tracer
