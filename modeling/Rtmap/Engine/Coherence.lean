import Rtmap.Engine.Steps

/-!
# Coherence of the shadow registers

A register reloaded from memory, and the writes of other threads to its source.
`check_coherence` marks the registers it finds with a source; a call saves them
aside, where no write reaches them.
-/
namespace Rtmap.Engine
open Rtmap.Ring Transition

/-- The register is Observed with this value. -/
def ShadowReg.Holds (r : ShadowReg) (v : UInt64) : Prop := r.confidence = .observed ∧ r.value = v

instance (r : ShadowReg) (v : UInt64) : Decidable (r.Holds v) :=
  inferInstanceAs (Decidable (_ ∧ _))

theorem ShadowReg.not_holds_of_confidence {r : ShadowReg} {v : UInt64}
    (h : r.confidence ≠ .observed) : ¬ r.Holds v := fun hr => h hr.1

namespace ShadowRegisterFile
variable {f : ShadowRegisterFile} {i : RegIdx} {v : UInt64}

/-- The write is of more than eight bytes or of another value, and goes into the source. -/
def Marks (r : ShadowReg) (writtenAddr writtenValue : UInt64) (writeSize : UInt32) : Prop :=
  overlaps r writtenAddr writeSize = true ∧ (writeSize > 8 ∨ r.value ≠ writtenValue)

instance (r : ShadowReg) (addr value : UInt64) (size : UInt32) :
    Decidable (Marks r addr value size) := inferInstanceAs (Decidable (_ ∧ _))

/-- What is checked stays Observed unless the write marks it. -/
theorem holds_coherent {r : ShadowReg} {addr value : UInt64} {size : UInt32} :
    (coherent r addr value size).Holds v ↔ r.Holds v ∧ ¬ Marks r addr value size := by
  rw [coherent]
  split
  · rename_i h
    constructor
    · rintro ⟨hstale, -⟩
      cases hstale
    · rintro ⟨-, hmarks⟩
      exact absurd ⟨h.1, h.2.1⟩ hmarks
  · rename_i h
    constructor
    · intro hr
      refine ⟨hr, fun hmarks => h ⟨hmarks.1, hmarks.2, ?_⟩⟩
      rw [hr.1]
      decide
    · exact And.left

/-- A write of the thread's own leaves a register or writes it back. -/
theorem observeWrite_regs (value pc : UInt64) (seq : ℕ) (func : Option FunctionMeta) (i : RegIdx) :
    (f.observeWrite value pc seq func).regs i = f.regs i ∨
      ((f.observeWrite value pc seq func).regs i).confidence = .writeBack := by
  cases func with
  | none => exact .inl rfl
  | some func =>
      refine List.foldlRecOn (motive := fun regs : Regs => regs i = f.regs i ∨
        (regs i).confidence = .writeBack) func.locals _ (.inl rfl) fun regs h l _ => ?_
      cases homeRegister pc l with
      | none => exact h
      | some j =>
          by_cases hij : i = j
          · subst hij
            dsimp only
            rw [Function.update_self]
            exact .inr rfl
          · dsimp only
            rw [Function.update_of_ne hij]
            exact h

/-- After a call a register is Observed only if it is rsp, or one that calls leave alone. -/
theorem holds_onCall {calleePc rsp : UInt64} {seq : ℕ} :
    ((f.onCall calleePc rsp seq).regs i).Holds v →
      i = 7 ∧ rsp = v ∨ i ≠ 7 ∧ (f.regs i).Holds v := by
  intro h
  rw [onCall] at h
  dsimp only at h
  split at h
  · rename_i hi
    exact .inl ⟨hi, h.2⟩
  · rename_i hi
    refine .inr ⟨hi, ?_⟩
    split at h
    · split at h
      · cases h.1
      · exact h
    · split at h
      · cases h.1
      · exact h

theorem holds_onCall_rsp {calleePc rsp : UInt64} {seq : ℕ} :
    ((f.onCall calleePc rsp seq).regs 7).Holds v ↔ rsp = v :=
  ⟨fun h => h.2, fun h => ⟨rfl, h⟩⟩

/-- The registers a return takes from the frame. -/
def restored (i : RegIdx) : Prop := i ≠ 0 ∧ (i ∈ CALLEE_SAVED ∨ i ∈ CALLER_SAVED)

instance (i : RegIdx) : Decidable (restored i) := inferInstanceAs (Decidable (_ ∧ _))

/-- After a return a register is Observed if the frame's copy is, where the return
takes it from the frame, and rax never is. -/
theorem holds_onReturn {frame : RegFrame} {rest : List RegFrame} (hf : f.callStack = frame :: rest)
    {seq : ℕ} {pc : UInt64} : ((f.onReturn seq pc).regs i).Holds v ↔
      if restored i then (frame.savedRegs i).Holds v else i ≠ 0 ∧ (f.regs i).Holds v := by
  rw [onReturn, hf]
  dsimp only
  by_cases h0 : i = 0
  · subst h0
    rw [if_pos rfl, if_neg fun h => h.1 rfl]
    constructor
    · rintro ⟨hc, -⟩
      cases hc
    · rintro ⟨h, -⟩
      exact absurd rfl h
  · rw [if_neg h0]
    by_cases hsaved : i ∈ CALLEE_SAVED ∨ i ∈ CALLER_SAVED
    · rw [if_pos hsaved, if_pos ⟨h0, hsaved⟩]
    · rw [if_neg hsaved, if_neg fun h => hsaved h.2]
      exact ⟨fun h => ⟨h0, h⟩, And.right⟩

/-- The unwind rows verify registers that were not Observed. -/
theorem holds_onReturnCfi {seq : ℕ} {pc : UInt64} {cfiSaved : List ℕ} :
    ((f.onReturnCfi seq pc cfiSaved).regs i).Holds v ↔ ((f.onReturn seq pc).regs i).Holds v := by
  rw [onReturnCfi]
  dsimp only
  split
  · rename_i h
    constructor
    · rintro ⟨hc, -⟩
      cases hc
    · intro hr
      rw [hr.1] at h
      exact absurd h.2.2.2 (lt_irrefl _)
  · rfl

end ShadowRegisterFile

/-- The register file of a thread; a thread without one has nothing in it. -/
def State.regFile (s : State) (tid : UInt16) : ShadowRegisterFile := (s.shadowRegs tid).getD {}

theorem regFile_of_shadowRegs {s t : State} (h : t.shadowRegs = s.shadowRegs) :
    t.regFile = s.regFile := by
  funext tid
  rw [State.regFile, State.regFile, h]

theorem regFile_withRegs (s : State) (tid t : UInt16) (f : ShadowRegisterFile → ShadowRegisterFile) :
    (s.withRegs tid f).regFile t = if t = tid then f (s.regFile t) else s.regFile t := by
  rw [State.regFile, State.withRegs]
  dsimp only
  by_cases h : t = tid
  · subst h
    rw [if_pos rfl, Function.update_self]
    rfl
  · rw [if_neg h, Function.update_of_ne h]
    rfl

theorem regFile_of_withRegs {s t : State} {tid : UInt16}
    {f : ShadowRegisterFile → ShadowRegisterFile}
    (h : t.shadowRegs = (s.withRegs tid f).shadowRegs) (u : UInt16) :
    t.regFile u = if u = tid then f (s.regFile u) else s.regFile u := by
  rw [regFile_of_shadowRegs h, regFile_withRegs]

namespace Write
variable {ev : Event} {s : State}

/-- The write has the other threads' registers checked: it is neither truncated nor
a continuation, and its line has more than one writer modulo 16. -/
def Checks (ev : Event) (s : State) : Prop :=
  (!ev.isTruncated && !ev.isContinuation && countOnes
    (ClTracker.recordWrite s.world.clTracker ev.addr ev.threadId).2 > 1) = true

instance (ev : Event) (s : State) : Decidable (Checks ev s) := inferInstanceAs (Decidable (_ = _))

/-- The files of the other threads after a WRITE. -/
theorem regFile_registered {tid : UInt16} (htid : tid ≠ ev.threadId) :
    (registered ev s).regFile tid =
      if Checks ev s then (s.regFile tid).checkCoherence ev.addr (writeValue ev) ev.size
      else s.regFile tid := by
  have hobserve : (observe ev (recordLine ev s).1).shadowRegs tid = s.shadowRegs tid := by
    rw [observe]
    split
    · rfl
    · split
      · exact Function.update_of_ne htid ..
      · rfl
  have hchecks : Checks ev s ↔ (!ev.isTruncated && !ev.isContinuation &&
      countOnes (recordLine ev s).2 > 1) = true := Iff.rfl
  rw [registered, cohere, State.regFile, State.regFile]
  by_cases h : Checks ev s
  · rw [if_pos h, if_pos (hchecks.mp h)]
    dsimp only
    rw [if_neg htid, hobserve]
    cases s.shadowRegs tid with
    | none =>
        rw [Option.map_none, Option.getD_none, ShadowRegisterFile.checkCoherence]
        rfl
    | some f => rfl
  · rw [if_neg h, if_neg (mt hchecks.mpr h), hobserve]

/-- The writing thread's own file after a WRITE. -/
theorem regFile_registered_self (i : RegIdx) :
    ((registered ev s).regFile ev.threadId).regs i = (s.regFile ev.threadId).regs i ∨
      (((registered ev s).regFile ev.threadId).regs i).confidence = .writeBack := by
  have hcohere (t : State) (writers : UInt16) :
      (cohere ev writers t).regFile ev.threadId = t.regFile ev.threadId := by
    rw [cohere]
    split
    · exact congrArg (fun f : Option ShadowRegisterFile => f.getD {}) (if_pos rfl)
    · rfl
  rw [registered, hcohere, observe]
  split
  · exact .inl rfl
  · split
    · rw [regFile_withRegs, if_pos rfl]
      exact ShadowRegisterFile.observeWrite_regs ..
    · exact .inl rfl

theorem shadowRegs_processWrite (host : Host) :
    (processWrite host ev s).shadowRegs = (registered ev s).shadowRegs := by
  have hkept : (processWrite host ev s).kept = (registered ev s).kept :=
    (kept_node host ev _).trans (kept_heap host ev _)
  exact congrArg Kept.shadowRegs hkept

end Write

/-- What an event does to the register files. -/
theorem shadowRegs_processEvent (host : Host) (ev : Event) (s : State) :
    (processEvent host ev s).shadowRegs =
      match kindOf ev with
      | .write => (Write.registered ev (countEvent s)).shadowRegs
      | .call => (s.withRegs ev.threadId fun f => f.onCall ev.addr ev.value (seqOf ev)).shadowRegs
      | .ret => (s.withRegs ev.threadId (returnRegs ev s.dwarfInfo)).shadowRegs
      | .reload => (processReload ev s).shadowRegs
      | _ => s.shadowRegs := by
  rw [processEvent, processKind]
  cases kindOf ev with
  | write => exact Write.shadowRegs_processWrite host
  | call =>
      dsimp only
      rw [processCall]
      split <;> rfl
  | ret =>
      dsimp only
      rw [processReturn]
      split
      · rfl
      · dsimp only
        split
        · rfl
        · rw [retireFrame]
          split
          · split <;> rfl
          · rfl
  | alloc => exact congrArg Kept.shadowRegs (kept_processAlloc host ev (countEvent s))
  | free => exact congrArg Kept.shadowRegs (kept_processFree ev (countEvent s))
  | moduleLoad =>
      dsimp only
      rw [processModuleLoad]
      split <;> rfl
  | _ => rfl

/-- The last reload of a register, and whether another thread has changed a byte of
its source since. -/
structure Reload where
  value : UInt64
  src : UInt64
  size : UInt32
  changed : Bool := false
deriving DecidableEq, Repr

/-- The target's memory, by address. -/
abbrev Bytes := ℕ → UInt8

/-- The write changes a byte of the source. -/
def Reload.hitBy (r : Reload) (ev : Event) (before after : Bytes) : Bool :=
  (List.range r.size.toNat).any fun i =>
    ev.addr.toNat ≤ r.src.toNat + i && r.src.toNat + i < ev.addr.toNat + ev.size.toNat &&
      before (r.src.toNat + i) != after (r.src.toNat + i)

/-- What happens to the engine next: an input, or its cache lines age. -/
inductive Happening where
  | input (x : Input)
  | age

/-- The engine beside the target's memory and the reloads of each thread's registers. -/
structure ReloadWatch where
  engine : State := {}
  memory : Bytes := fun _ => 0
  reloads : UInt16 → RegIdx → Option Reload := fun _ _ => none

namespace ReloadWatch

/-- The reloads after an event. -/
def reloadsAfter (w : ReloadWatch) (ev : Event) (after : Bytes) : UInt16 → RegIdx → Option Reload :=
  match kindOf ev with
  | .write => fun tid i =>
      if tid = ev.threadId then w.reloads tid i
      else (w.reloads tid i).map fun r => { r with changed := r.changed || r.hitBy ev w.memory after }
  | .reload => fun tid i =>
      if tid = ev.threadId ∧ i.val = ev.flags.toNat then
        some { value := ev.value, src := ev.addr, size := ev.size }
      else w.reloads tid i
  | _ => w.reloads

/-- One step, with the memory as it is then. -/
def next (w : ReloadWatch) (x : Happening × Bytes) : ReloadWatch where
  engine :=
    match x.1 with
    | .input y => y.apply w.engine
    | .age =>
        { w.engine with world :=
          { w.engine.world with clTracker := w.engine.world.clTracker.tick } }
  memory := x.2
  reloads :=
    match x.1 with
    | .input (.event _ ev) => w.reloadsAfter ev x.2
    | .input (.snapshot u) => fun tid i => if tid = u.threadId then none else w.reloads tid i
    | _ => w.reloads

def run (w : ReloadWatch) (xs : List (Happening × Bytes)) : ReloadWatch := xs.foldl next w

/-- No register is Observed with the value of a reload whose source another thread
has changed since. -/
def Coherent (w : ReloadWatch) : Prop :=
  ∀ tid i r, w.reloads tid i = some r → r.changed = true →
    ¬ ((w.engine.regFile tid).regs i).Holds r.value

/-- The step leaves no register stale unnoticed: a write that changes the source of a
register still Observed is checked and marks it, a return brings no such register
back, and a call sets rsp to another value than the one reloaded. -/
def Safe (w : ReloadWatch) (x : Happening × Bytes) : Prop :=
  match x.1 with
  | .input (.event _ ev) =>
      match kindOf ev with
      | .write => ∀ tid i r, tid ≠ ev.threadId → w.reloads tid i = some r →
          r.hitBy ev w.memory x.2 = true → ((w.engine.regFile tid).regs i).Holds r.value →
          Write.Checks ev w.engine ∧ ShadowRegisterFile.Marks ((w.engine.regFile tid).regs i)
            ev.addr (writeValue ev) ev.size
      | .call => ∀ r, w.reloads ev.threadId 7 = some r → r.changed = true → ev.value ≠ r.value
      | .ret => ∀ i r frame, (w.engine.regFile ev.threadId).callStack.head? = some frame →
          ShadowRegisterFile.restored i → w.reloads ev.threadId i = some r → r.changed = true →
          ¬ (frame.savedRegs i).Holds r.value
      | _ => True
  | _ => True

variable {w : ReloadWatch}

theorem coherent_of_same {v : ReloadWatch} (hreloads : v.reloads = w.reloads)
    (hfiles : v.engine.regFile = w.engine.regFile) : v.Coherent ↔ w.Coherent := by
  rw [Coherent, Coherent, hreloads, hfiles]

/-- A write keeps the registers coherent exactly when it marks what it makes stale. -/
theorem coherent_write {host : Host} {ev : Event} {after : Bytes} (hkind : kindOf ev = .write)
    (h : w.Coherent) : (w.next (.input (.event host ev), after)).Coherent ↔
      w.Safe (.input (.event host ev), after) := by
  have hfiles : (w.next (.input (.event host ev), after)).engine.regFile =
      (Write.registered ev (countEvent w.engine)).regFile := by
    refine regFile_of_shadowRegs ((shadowRegs_processEvent host ev w.engine).trans ?_)
    rw [hkind]
  have hreloads (tid : UInt16) (i : RegIdx) :
      (w.next (.input (.event host ev), after)).reloads tid i =
        if tid = ev.threadId then w.reloads tid i
        else (w.reloads tid i).map fun r =>
          { r with changed := r.changed || r.hitBy ev w.memory after } := by
    simp only [next, reloadsAfter, hkind]
  -- the other threads' registers after the check
  have hother {tid : UInt16} (htid : tid ≠ ev.threadId) (i : RegIdx) (v : UInt64) :
      (((Write.registered ev (countEvent w.engine)).regFile tid).regs i).Holds v ↔
        ((w.engine.regFile tid).regs i).Holds v ∧ ¬ (Write.Checks ev w.engine ∧
          ShadowRegisterFile.Marks ((w.engine.regFile tid).regs i) ev.addr (writeValue ev)
            ev.size) := by
    rw [Write.regFile_registered htid]
    by_cases hchecks : Write.Checks ev (countEvent w.engine)
    · rw [if_pos hchecks]
      refine ShadowRegisterFile.holds_coherent.trans (and_congr_right fun _ => ?_)
      exact ⟨fun hm hcm => hm hcm.2, fun hm hmarks => hm ⟨hchecks, hmarks⟩⟩
    · rw [if_neg hchecks]
      exact ⟨fun hr => ⟨hr, fun hcm => hchecks hcm.1⟩, And.left⟩
  simp only [Safe, hkind]
  constructor
  · intro hnext tid i r htid hr hhit hholds
    have hafter := hnext tid i { r with changed := true } (by
      rw [hreloads, if_neg htid, hr, Option.map_some, hhit, Bool.or_true]) rfl
    rw [hfiles, hother htid] at hafter
    by_contra hcm
    exact hafter ⟨hholds, hcm⟩
  · intro hsafe tid i r hr hchanged
    rw [hreloads] at hr
    rw [hfiles]
    by_cases htid : tid = ev.threadId
    · subst htid
      rw [if_pos rfl] at hr
      have hbefore := h _ i r hr hchanged
      rcases @Write.regFile_registered_self ev (countEvent w.engine) i with heq | hback
      · rw [heq]
        exact hbefore
      · refine ShadowReg.not_holds_of_confidence ?_
        rw [hback]
        decide
    · rw [if_neg htid] at hr
      obtain ⟨r', hr', rfl⟩ := Option.map_eq_some_iff.mp hr
      rw [hother htid]
      rintro ⟨hholds, hcm⟩
      by_cases hold : r'.changed = true
      · exact h tid i r' hr' hold hholds
      · have hhit : r'.hitBy ev w.memory after = true := by
          simpa [hold] using hchanged
        exact hcm (hsafe tid i r' htid hr' hhit hholds)

/-- A call keeps them coherent exactly when rsp does not return to a stale value. -/
theorem coherent_call {host : Host} {ev : Event} {after : Bytes} (hkind : kindOf ev = .call)
    (h : w.Coherent) : (w.next (.input (.event host ev), after)).Coherent ↔
      w.Safe (.input (.event host ev), after) := by
  have hfiles (tid : UInt16) : (w.next (.input (.event host ev), after)).engine.regFile tid =
      if tid = ev.threadId then (w.engine.regFile tid).onCall ev.addr ev.value (seqOf ev)
      else w.engine.regFile tid := by
    refine regFile_of_withRegs (f := fun f => f.onCall ev.addr ev.value (seqOf ev))
      ((shadowRegs_processEvent host ev w.engine).trans ?_) tid
    rw [hkind]
  have hreloads : (w.next (.input (.event host ev), after)).reloads = w.reloads := by
    simp only [next, reloadsAfter, hkind]
  simp only [Safe, hkind, Coherent, hreloads]
  constructor
  · intro hnext r hr hchanged heq
    have hafter := hnext ev.threadId 7 r hr hchanged
    rw [hfiles, if_pos rfl] at hafter
    exact hafter (ShadowRegisterFile.holds_onCall_rsp.mpr heq)
  · intro hsafe tid i r hr hchanged hholds
    rw [hfiles] at hholds
    split at hholds
    · rename_i htid
      subst htid
      rcases ShadowRegisterFile.holds_onCall hholds with ⟨rfl, heq⟩ | ⟨-, hbefore⟩
      · exact hsafe r hr hchanged heq
      · exact h _ i r hr hchanged hbefore
    · exact h tid i r hr hchanged hholds

/-- A return keeps them coherent exactly when the frame holds no stale value. -/
theorem coherent_ret {host : Host} {ev : Event} {after : Bytes} (hkind : kindOf ev = .ret)
    (h : w.Coherent) : (w.next (.input (.event host ev), after)).Coherent ↔
      w.Safe (.input (.event host ev), after) := by
  have hfiles (tid : UInt16) : (w.next (.input (.event host ev), after)).engine.regFile tid =
      if tid = ev.threadId then returnRegs ev w.engine.dwarfInfo (w.engine.regFile tid)
      else w.engine.regFile tid := by
    refine regFile_of_withRegs (f := returnRegs ev w.engine.dwarfInfo)
      ((shadowRegs_processEvent host ev w.engine).trans ?_) tid
    rw [hkind]
  have hreloads : (w.next (.input (.event host ev), after)).reloads = w.reloads := by
    simp only [next, reloadsAfter, hkind]
  have hreturn (f : ShadowRegisterFile) (i : RegIdx) (v : UInt64) :
      ((returnRegs ev w.engine.dwarfInfo f).regs i).Holds v ↔
        ((f.onReturn (seqOf ev) ev.addr).regs i).Holds v := by
    rw [returnRegs]
    split
    · exact ShadowRegisterFile.holds_onReturnCfi
    · rfl
  simp only [Safe, hkind, Coherent, hreloads]
  constructor
  · intro hnext i r frame hframe hrestored hr hchanged hsaved
    obtain ⟨rest, hrest⟩ := List.head?_eq_some_iff.mp hframe
    have hafter := hnext ev.threadId i r hr hchanged
    rw [hfiles, if_pos rfl, hreturn, ShadowRegisterFile.holds_onReturn hrest,
      if_pos hrestored] at hafter
    exact hafter hsaved
  · intro hsafe tid i r hr hchanged hholds
    rw [hfiles] at hholds
    split at hholds
    · rename_i htid
      subst htid
      rw [hreturn] at hholds
      cases hstack : (w.engine.regFile ev.threadId).callStack with
      | nil =>
          rw [ShadowRegisterFile.onReturn, hstack] at hholds
          exact h _ i r hr hchanged hholds
      | cons frame rest =>
          rw [ShadowRegisterFile.holds_onReturn hstack] at hholds
          split at hholds
          · rename_i hrestored
            exact hsafe i r frame (by rw [hstack]; rfl) hrestored hr hchanged hholds
          · exact h _ i r hr hchanged hholds.2
    · exact h tid i r hr hchanged hholds

/-- A reload starts over with the register it sets. -/
theorem coherent_reload {host : Host} {ev : Event} {after : Bytes} (hkind : kindOf ev = .reload)
    (h : w.Coherent) : (w.next (.input (.event host ev), after)).Coherent := by
  have hfiles (tid : UInt16) : (w.next (.input (.event host ev), after)).engine.regFile tid =
      if tid = ev.threadId then (w.engine.regFile tid).onReload ev.flags.toNat ev.value ev.addr
        ev.size (seqOf ev) ev.addr
      else w.engine.regFile tid := by
    refine regFile_of_withRegs (f := fun f =>
      f.onReload ev.flags.toNat ev.value ev.addr ev.size (seqOf ev) ev.addr)
      ((shadowRegs_processEvent host ev w.engine).trans ?_) tid
    rw [hkind]
    rfl
  intro tid i r hr hchanged
  simp only [next, reloadsAfter, hkind] at hr
  split at hr
  · rw [← Option.some.inj hr] at hchanged
    cases hchanged
  · rename_i hnot
    have hbefore := h tid i r hr hchanged
    rw [hfiles]
    split
    · rename_i htid
      rw [ShadowRegisterFile.onReload]
      split
      · rename_i hlt
        have hi : i ≠ ⟨ev.flags.toNat, hlt⟩ := fun hi => hnot ⟨htid, congrArg Fin.val hi⟩
        dsimp only
        rw [Function.update_of_ne hi]
        exact hbefore
      · exact hbefore
    · exact hbefore

/-- One step keeps the registers coherent exactly when it is safe. -/
theorem coherent_next {x : Happening × Bytes} (h : w.Coherent) :
    (w.next x).Coherent ↔ w.Safe x := by
  obtain ⟨act, after⟩ := x
  cases act with
  | age => exact iff_of_true ((coherent_of_same rfl rfl).mpr h) trivial
  | input y =>
      cases y with
      | libraries host modtab =>
          have hregs : (populateLibGlobals host modtab w.engine).1.shadowRegs =
              w.engine.shadowRegs := by
            rw [populateLibGlobals]
            split
            · rfl
            · split
              · rfl
              · split <;> rfl
          have hsame : (w.next (.input (.libraries host modtab), after)).Coherent ↔ w.Coherent :=
            coherent_of_same rfl (regFile_of_shadowRegs hregs)
          exact iff_of_true (hsame.mpr h) trivial
      | snapshot u =>
          refine iff_of_true (fun tid i r hr hchanged => ?_) trivial
          simp only [next] at hr
          split at hr
          · cases hr
          · rename_i htid
            have hregs : (applySnapshotUpdate u w.engine).shadowRegs =
                (w.engine.withRegs u.threadId fun f => f.applySnapshot
                  (fun i => u.regs.getD i.val 0) u.seq.toNat u.insnCounter).shadowRegs := rfl
            show ¬ (((applySnapshotUpdate u w.engine).regFile tid).regs i).Holds r.value
            rw [regFile_of_withRegs hregs, if_neg htid]
            exact h tid i r hr hchanged
      | event host ev =>
          have hother (hreloads : w.reloadsAfter ev after = w.reloads)
              (hregs : (processEvent host ev w.engine).shadowRegs = w.engine.shadowRegs) :
              (w.next (.input (.event host ev), after)).Coherent :=
            (coherent_of_same hreloads (regFile_of_shadowRegs hregs)).mpr h
          cases hkind : kindOf ev with
          | write => exact coherent_write hkind h
          | call => exact coherent_call hkind h
          | ret => exact coherent_ret hkind h
          | reload =>
              refine iff_of_true (coherent_reload hkind h) ?_
              simp only [Safe, hkind]
          | _ =>
              refine iff_of_true (hother ?_ ?_) ?_
              · simp only [reloadsAfter, hkind]
              · rw [shadowRegs_processEvent, hkind]
              · simp only [Safe, hkind]

/-- Memory with this byte at 0x1000. -/
def byteAt (b : UInt8) : Bytes := fun a => if a = 0x1000 then b else 0

/-- Thread 3 stores 5, thread 2 loads it into r12 and calls; thread 1 stores 7, a
write that is checked, and thread 2 returns. -/
def storeInCall : List (Happening × Bytes) :=
  [(.input (.event .plain (numbered 3 0 (plainEvent EVENT_WRITE 0x1000 5))), byteAt 5),
    (.input (.event .plain { numbered 2 0 (plainEvent EVENT_RELOAD 0x1000 5) with
      kindFlags := makeKf EVENT_RELOAD 12 0 }), byteAt 5),
    (.input (.event .plain (numbered 2 1 (plainEvent EVENT_CALL 0x400000 0x7fff0000))), byteAt 5),
    (.input (.event .plain (numbered 1 0 (plainEvent EVENT_WRITE 0x1000 7))), byteAt 7),
    (.input (.event .plain (numbered 2 2 (plainEvent EVENT_RETURN 0x400000 0))), byteAt 7)]

end ReloadWatch

end Rtmap.Engine
