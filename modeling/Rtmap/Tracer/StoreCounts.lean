import Rtmap.Tracer.SentNumbers

/-!
# Counts of stores and blocks

Shedding is never silent: each store and each block of the traced program is in the ring or
in the counter of what was shed.
-/
namespace Rtmap.Tracer
open Rtmap.Ring

/-- The event starts a store. -/
def isStore (e : Event) : Bool := e.kind == EVENT_WRITE && !e.isContinuation

def isBlock (e : Event) : Bool := e.kind == EVENT_BB_ENTRY

namespace Producer

/-- A store of the traced program. -/
def storing (phase : Phase) : Producer → Bool
  | .write .. => phase == .trace
  | _ => false

def entering (phase : Phase) : Producer → Bool
  | .bbEntry .. => phase == .trace
  | _ => false

end Producer

/-- How often the producers do something that depends on the phase they run in. -/
def countIn (does : Phase → Producer → Bool) : Phase → List Producer → ℕ
  | _, [] => 0
  | phase, p :: ps =>
      (does phase p).toNat +
        countIn does (match p with | .tripwire => .trace | _ => phase) ps

/-- What the scratch pad counts, for a thread with or without a ring. -/
structure Thread.Stats where
  mapped : Bool
  inlineWrites : ℕ
  shedWrites : ℕ
  shedBb : ℕ

def Thread.stats (t : Thread) : Thread.Stats := ⟨t.mapped, t.inlineWrites, t.shedWrites, t.shedBb⟩

section Frame
variable {env : Env} {t : Thread}

theorem stats_call (c : CleanCall) (env : Env) (t : Thread) : (c.run env t).stats = t.stats := by
  by_cases hflushes : c.Flushes t env
  · obtain ⟨_, _, _, heq⟩ := CleanCall.run_of_flushes hflushes
    rw [heq]
    rfl
  · obtain ⟨_, heq⟩ := CleanCall.run_of_not_flushes hflushes
    rw [heq]
    rfl

theorem stats_syscall (c : Syscall) (env : Env) (t : Thread) :
    (t.eventPreSyscall.eventPostSyscall c env).stats = t.stats := by
  by_cases hpushes : env.phase ≠ .boot ∧ c.pushes t ≠ [] ∧ t.mapped = true
  · obtain ⟨_, _, heq⟩ := syscall_of_pushes env hpushes
    rw [heq]
    rfl
  · obtain ⟨_, heq⟩ := syscall_of_no_pushes env hpushes
    rw [heq]
    rfl

end Frame

section Inline
variable {env : Env} {t : Thread}

/-- A store outside the traced phase, one that is shed, and one that fills its slots. -/
theorem emitWrite_outcome (hmapped : t.mapped = true) (hnesting : t.nesting = false) (w : PreWrite)
    (effect : Memory → Memory) (env : Env) :
    ((t.emitWrite w effect env).stats, t.writeEvents w effect env) =
      if env.phase ≠ .trace then (t.stats, [])
      else if BP_TIER_SHED_WRITES ≤ t.bp then ({ t.stats with shedWrites := t.shedWrites + 1 }, [])
      else ({ t.stats with inlineWrites := t.inlineWrites + 1 }, t.stored w (effect t.mem)) := by
  rw [Thread.emitWrite, Thread.writeEvents]
  by_cases hphase : env.phase = .trace
  · by_cases hbp : BP_TIER_SHED_WRITES ≤ t.bp
    · rw [Thread.emitPreWrite]
      simp [hphase, hnesting, hmapped, hbp, Thread.emitPostWrite, Thread.stats]
    · have hpre : t.emitPreWrite w env = Producing.armed w t.mem t := by
        rw [Thread.emitPreWrite, if_neg (not_not.mpr hphase), if_neg (by simp [hnesting]),
          if_neg (by simp [hmapped]), if_neg hbp]
        rfl
      obtain ⟨_, _, _, hcapture⟩ := captureValue_frame w.post (t.capacity.index t.cached)
        (Producing.armed w (effect t.mem) t)
      rw [hpre, if_neg (not_not.mpr hphase), if_neg hbp]
      exact Prod.ext (congrArg (fun u =>
        { u.bumpHead with inlineWrites := u.inlineWrites + 1 }.stats) hcapture) rfl
  · rw [Thread.emitPreWrite]
    simp [hphase, Thread.emitPostWrite, Thread.stats]

theorem emitBbEntry_outcome (hmapped : t.mapped = true) (pc : UInt64) (rip : UInt32) (env : Env) :
    ((t.emitBbEntry pc rip env).stats, t.bbEvents pc rip env) =
      if env.phase ≠ .trace then (t.stats, [])
      else if t.bp ≠ 0 then ({ t.stats with shedBb := t.shedBb + 1 }, [])
      else (t.stats, [(Op.bbEntry pc t.tid t.seq rip).slot 0]) := by
  rw [Thread.emitBbEntry, Thread.bbEvents]
  by_cases hphase : env.phase = .trace
  · by_cases hbp : t.bp = 0
    · simp [hphase, hmapped, hbp, Thread.bumpHead, Thread.stats]
    · simp [hphase, hmapped, hbp, Thread.stats]
  · simp [hphase]

end Inline

section Kinds
variable {s : Producing}

/-- No slot of a clean call's event looks like a store or a block. -/
theorem not_inline_of_push {p : Producer} (h : p.isInline = false) (hregs : p.NamesRegister) :
    ∀ e ∈ p.events s, isStore e = false ∧ isBlock e = false := by
  intro e he
  rw [events_of_push h] at he
  obtain ⟨op, hop, he⟩ := List.mem_flatMap.mp he
  have hdomain : Engine.seqDomain op.kind = 1 :=
    congrArg Prod.snd (numbered_admitted hregs op hop).2
  have hkind : op.kind ≠ EVENT_WRITE ∧ op.kind ≠ EVENT_BB_ENTRY := by
    constructor <;> intro hk <;> rw [hk] at hdomain <;> cases hdomain
  rw [op.slots_eq] at he
  rcases List.mem_cons.mp he with rfl | he
  · rw [isStore, isBlock, op.kind_lead, beq_eq_false_iff_ne.mpr hkind.1,
      beq_eq_false_iff_ne.mpr hkind.2, Bool.false_and]
    exact ⟨rfl, rfl⟩
  · cases hsnap : op.isSnapshot with
    | true =>
        rw [isStore, isBlock, (Op.tail_of_snapshot hsnap he).2.1]
        exact ⟨rfl, rfl⟩
    | false =>
        obtain ⟨hcont, hwrite⟩ := Op.tail_of_not_snapshot hsnap he
        rw [isStore, isBlock, hcont, hwrite]
        exact ⟨rfl, rfl⟩

/-- A store is one header with its continuations. -/
theorem filter_stored (w : PreWrite) (after : Memory) (t : Thread) :
    ((t.stored w after).filter isStore).length = 1 ∧ (t.stored w after).filter isBlock = [] := by
  have hhead (value : UInt64) :
      isStore { (⟨w, t.tid, t.seq, after⟩ : Flight).header with value := value } = true ∧
        isBlock { (⟨w, t.tid, t.seq, after⟩ : Flight).header with value := value } = false := by
    have hkind : Event.kind { (⟨w, t.tid, t.seq, after⟩ : Flight).header with value := value } =
        EVENT_WRITE := kind_makeKf ..
    have hflags : Event.flags { (⟨w, t.tid, t.seq, after⟩ : Flight).header with value := value } =
        if w.wide then FLAG_COMPOUND else 0 := flags_makeKf ..
    rw [isStore, isBlock, hkind, Event.isContinuation, hflags]
    cases w.wide <;> exact ⟨rfl, rfl⟩
  have hrest : ∀ e ∈ (t.stored w after).tail, isStore e = false ∧ isBlock e = false := by
    intro e he
    rw [Thread.stored, List.tail_cons] at he
    split at he
    · cases he
    · obtain ⟨j, -, rfl⟩ := List.mem_map.mp he
      rw [isStore, isBlock, isContinuation_continuation, kind_continuation]
      exact ⟨rfl, rfl⟩
  have hnone : (t.stored w after).tail.filter isStore = [] :=
    List.filter_eq_nil_iff.mpr fun e he => Bool.not_eq_true _ ▸ (hrest e he).1
  have hnone' : (t.stored w after).tail.filter isBlock = [] :=
    List.filter_eq_nil_iff.mpr fun e he => Bool.not_eq_true _ ▸ (hrest e he).2
  rw [Thread.stored, List.tail_cons] at hnone hnone'
  rw [Thread.stored, List.filter_cons_of_pos (hhead _).1, hnone,
    List.filter_cons_of_neg (by rw [(hhead _).2]; exact Bool.false_ne_true), hnone']
  exact ⟨rfl, rfl⟩

theorem filter_bbEntry (pc : UInt64) (tid : UInt16) (seq rip : UInt32) :
    [(Op.bbEntry pc tid seq rip).slot 0].filter isStore = [] ∧
      ([(Op.bbEntry pc tid seq rip).slot 0].filter isBlock).length = 1 := by
  have hkind : ((Op.bbEntry pc tid seq rip).slot 0).kind = EVENT_BB_ENTRY := kind_makeKf ..
  simp only [List.filter_cons, List.filter_nil, isStore, isBlock, hkind]
  exact ⟨rfl, rfl⟩

end Kinds

/-- A thread with a ring: `stores` and `blocks` of the program are all accounted for. -/
structure Counted (s : Producing) (stores blocks : ℕ) : Prop where
  mapped : s.thread.mapped = true
  inlineWrites : (s.log.filter isStore).length = s.thread.inlineWrites
  stores : s.thread.inlineWrites + s.thread.shedWrites = stores
  blocks : (s.log.filter isBlock).length + s.thread.shedBb = blocks

namespace Counted
variable {s : Producing} {stores blocks : ℕ}

/-- What a step counts and what it logs, side by side. -/
theorem next {p : Producer} {x : Thread.Stats} {events : List Event} {stores' blocks' : ℕ}
    (hx : ((s.step p).thread.stats, p.events s) = (x, events)) (hmapped : x.mapped = true)
    (hlogged : (s.log.filter isStore).length + (events.filter isStore).length = x.inlineWrites)
    (hstores : x.inlineWrites + x.shedWrites = stores')
    (hblocks : (s.log.filter isBlock).length + (events.filter isBlock).length + x.shedBb = blocks') :
    Counted (s.step p) stores' blocks' := by
  obtain ⟨rfl, rfl⟩ := Prod.mk.inj hx
  constructor
  · exact hmapped
  · rw [log_step, List.filter_append, List.length_append]
    exact hlogged
  · exact hstores
  · rw [log_step, List.filter_append, List.length_append]
    exact hblocks

/-- A step that stores nothing and enters no block. -/
theorem quiet (h : Counted s stores blocks) {p : Producer} (hinline : p.isInline = false)
    (hregs : p.NamesRegister) (hstats : (s.step p).thread.stats = s.thread.stats) :
    Counted (s.step p) stores blocks := by
  have hstore : (p.events s).filter isStore = [] := List.filter_eq_nil_iff.mpr fun e he =>
    Bool.not_eq_true _ ▸ (not_inline_of_push hinline hregs e he).1
  have hblock : (p.events s).filter isBlock = [] := List.filter_eq_nil_iff.mpr fun e he =>
    Bool.not_eq_true _ ▸ (not_inline_of_push hinline hregs e he).2
  refine next (Prod.ext hstats rfl) h.mapped ?_ h.stores ?_
  · rw [hstore]
    exact h.inlineWrites
  · rw [hblock]
    exact h.blocks

/-- A traced store is in the log or counted as shed. -/
theorem write (h : Counted s stores blocks) (hnesting : s.thread.nesting = false) (w : PreWrite)
    (effect : Memory → Memory) (env : Env) :
    Counted (s.step (.write w effect env)) (stores + (s.phase == .trace).toNat) blocks := by
  have houtcome := emitWrite_outcome h.mapped hnesting w effect { env with phase := s.phase }
  have hfilter := filter_stored w (effect s.thread.mem) s.thread
  by_cases hphase : s.phase = .trace
  · rw [if_neg (not_not.mpr hphase)] at houtcome
    rw [hphase, ← h.stores]
    split at houtcome
    · exact next houtcome h.mapped h.inlineWrites rfl h.blocks
    · refine next houtcome h.mapped ?_ (Nat.add_right_comm ..) ?_
      · rw [hfilter.1, h.inlineWrites]
      · rw [hfilter.2]
        exact h.blocks
  · rw [if_pos hphase] at houtcome
    rw [beq_eq_false_iff_ne.mpr hphase]
    exact next houtcome h.mapped h.inlineWrites h.stores h.blocks

theorem bbEntry (h : Counted s stores blocks) (pc : UInt64) (rip : UInt32) (env : Env) :
    Counted (s.step (.bbEntry pc rip env)) stores (blocks + (s.phase == .trace).toNat) := by
  have houtcome := emitBbEntry_outcome h.mapped pc rip { env with phase := s.phase }
  have hfilter := filter_bbEntry pc s.thread.tid s.thread.seq rip
  by_cases hphase : s.phase = .trace
  · rw [if_neg (not_not.mpr hphase)] at houtcome
    rw [hphase, ← h.blocks]
    split at houtcome
    · exact next houtcome h.mapped h.inlineWrites h.stores rfl
    · refine next houtcome h.mapped ?_ h.stores ?_
      · rw [hfilter.1]
        exact h.inlineWrites
      · rw [hfilter.2]
        exact Nat.add_right_comm ..
  · rw [if_pos hphase] at houtcome
    rw [beq_eq_false_iff_ne.mpr hphase]
    exact next houtcome h.mapped h.inlineWrites h.stores h.blocks

theorem step (h : Counted s stores blocks) (hnesting : s.thread.nesting = false) (p : Producer)
    (hregs : p.NamesRegister) :
    Counted (s.step p) (stores + (p.storing s.phase).toNat) (blocks + (p.entering s.phase).toNat) := by
  cases p with
  | write w effect env => exact h.write hnesting w effect env
  | bbEntry pc rip env => exact h.bbEntry pc rip env
  | blockEnd env =>
      refine h.quiet rfl hregs ?_
      simp only [Producing.step, Producing.next, Thread.flushHeadCache]
      split <;> rfl
  | call c env => exact h.quiet rfl hregs (stats_call c _ s.thread)
  | syscall c env => exact h.quiet rfl hregs (stats_syscall c _ s.thread)
  | read addr size env => exact h.quiet rfl hregs rfl
  | app effect => exact h.quiet rfl hregs rfl
  | tripwire => exact h.quiet rfl hregs rfl

end Counted

theorem phase_step (s : Producing) (p : Producer) :
    (s.step p).phase = match p with | .tripwire => .trace | _ => s.phase := by
  cases p <;> rfl

theorem Counted.run {s : Producing} {stores blocks : ℕ} (h : Counted s stores blocks)
    (hsteady : s.Steady) {producers : List Producer}
    (hregs : ∀ p ∈ producers, p.NamesRegister) :
    Counted (s.run producers) (stores + countIn Producer.storing s.phase producers)
      (blocks + countIn Producer.entering s.phase producers) := by
  induction producers generalizing s stores blocks with
  | nil => exact h
  | cons p ps ih =>
      have hnext := ih (h.step hsteady.nesting p (hregs p List.mem_cons_self)) (hsteady.step p)
        fun q hq => hregs q (List.mem_cons_of_mem _ hq)
      rw [phase_step, Nat.add_assoc, Nat.add_assoc] at hnext
      exact hnext

/-- In every run of a thread with a ring: the stores of the traced program are those in
the log and those counted as shed, and so are the blocks. -/
theorem shedding_is_counted (phase : Phase) (tid : UInt16) (mem : Memory)
    {producers : List Producer} (hregs : ∀ p ∈ producers, p.NamesRegister) :
    Counted ((Producing.init phase true tid mem).run producers)
      (countIn Producer.storing phase producers) (countIn Producer.entering phase producers) := by
  have hinit : Counted (.init phase true tid mem) 0 0 := ⟨rfl, rfl, rfl, rfl⟩
  have hrun := hinit.run (Producing.steady_init phase true tid mem) hregs
  rw [Nat.zero_add, Nat.zero_add] at hrun
  exact hrun

/-- A store, a flush that finds the tier for shedding writes, and a store that is shed. -/
def storeThenShed : List Producer :=
  [Producing.storesByte, .blockEnd { Env.plain with tier := 2 }, Producing.storesByte]

theorem storeThenShed_counted :
    Counted ((Producing.init .trace true 7 fun _ => some 0).run storeThenShed) 2 0 := by
  have hregs : ∀ p ∈ storeThenShed, p.NamesRegister := by
    simp [storeThenShed, Producing.storesByte, Producer.NamesRegister]
  exact shedding_is_counted .trace 7 (fun _ => some 0) hregs

end Rtmap.Tracer
