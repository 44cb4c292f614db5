import Rtmap.Engine.Coherence
import Rtmap.Engine.LibFunctions
import Rtmap.Engine.RegisterCalls

/-!
# Call stacks of threads

What the engine takes for a thread's call stack depends on that thread's own calls and
returns and on where the modules lie, whatever the other threads do in between.
-/
namespace Rtmap.Engine
open Rtmap.Ring

/-- The frames by callee and name: their numbers count the calls of all threads. -/
def ShadowStack.unnumbered (st : ShadowStack) : ShadowStack :=
  { st with frames := st.frames.map fun f => { f with frameId := 0 } }

/-- What a thread's calls and returns read and change: the place of the modules, the
functions, the thread's stack and the callees on its register file's stack. -/
structure CallView where
  lookups : Option UInt64 × Option DwarfInfo
  stack : Option ShadowStack
  callees : List UInt64

def State.callView (s : State) (tid : UInt16) : CallView where
  lookups := s.lookups
  stack := (s.threadStacks tid).map ShadowStack.unnumbered
  callees := (s.regFile tid).callStack.map RegFrame.calleePc

/-- The input may move the thread's stack: a call or return of its own, a module load, or
the merge of the libraries. -/
def Input.concerns (tid : UInt16) : Input → Bool
  | .event _ ev =>
      kindOf ev == .moduleLoad ||
        (kindOf ev == .call || kindOf ev == .ret) && ev.threadId == tid
  | .libraries .. => true
  | .snapshot _ => false

section Lookups
variable {host : Host} {ev : Event} {s t : State}

/-- Only module loads place a module. -/
theorem lookups_processEvent_of_ne (h : kindOf ev ≠ .moduleLoad) :
    (processEvent host ev s).lookups = s.lookups := by
  have hcount : (countEvent s).lookups = s.lookups := rfl
  rw [processEvent, processKind, ← hcount]
  cases hkind : kindOf ev with
  | moduleLoad => exact absurd hkind h
  | write => exact (congrArg Kept.lookups (fixed_processWrite host ev (countEvent s)) :)
  | call =>
      simp only [processCall]
      split <;> rfl
  | ret =>
      have hretire (fid : FrameId) (t : State) : (retireFrame fid t).lookups = t.lookups := by
        rw [retireFrame]
        split
        · split <;> rfl
        · rfl
      simp only [processReturn]
      split
      · rfl
      · split
        · rfl
        · exact hretire ..
  | alloc => exact (congrArg Kept.lookups (kept_processAlloc host ev (countEvent s)) :)
  | free => exact (congrArg Kept.lookups (kept_processFree ev (countEvent s)) :)
  | _ => rfl

/-- The first module load places the main module. -/
def placed (ev : Event) : Option UInt64 × Option DwarfInfo → Option UInt64 × Option DwarfInfo
  | (none, some info) => (some (ev.addr - info.elfBaseVaddr), some info)
  | l => l

theorem lookups_moduleLoad (h : kindOf ev = .moduleLoad) :
    (processEvent host ev s).lookups = placed ev s.lookups := by
  rw [processEvent, processKind, h]
  simp only [processModuleLoad, countEvent, State.lookups]
  cases s.relocationDelta with
  | some delta => rfl
  | none => cases s.dwarfInfo <;> rfl

theorem lookups_libraries (hostOf : Host) (modtab : List Module) (h : s.lookups = t.lookups) :
    (populateLibGlobals hostOf modtab s).1.lookups =
      (populateLibGlobals hostOf modtab t).1.lookups := by
  have hmerged (x : State) : (populateLibGlobals hostOf modtab x).1.lookups =
      (x.lookups.1, x.lookups.2.map fun info =>
        if modtab.isEmpty then info
        else (info.libGlobals.mapM (libDelta modtab)).elim info fun deltas => { info with
          functions := (info.libGlobals.zip deltas).foldl
            (fun m l => mergeFunctions l.2 l.1 m) info.functions }) := by
    unfold populateLibGlobals
    cases hinfo : x.dwarfInfo with
    | none => simp only [State.lookups, hinfo, Option.map_none]
    | some info =>
        have hstatic : info.static.libGlobals = info.libGlobals := rfl
        dsimp only
        split
        · simp only [State.lookups, *, Option.map_some]
        · split
          · simp only [State.lookups, *, Option.map_some, Option.elim_none]
          · simp only [State.lookups, *, Option.map_some, Option.elim_some]
            rfl
  rw [hmerged, hmerged, h]

end Lookups

section Stacks
variable {host : Host} {ev : Event} {s t : State} {tid : UInt16}

/-- Only calls and returns move a stack. -/
theorem threadStacks_of_ne (hcall : kindOf ev ≠ .call) (hret : kindOf ev ≠ .ret) :
    (processEvent host ev s).threadStacks = s.threadStacks := by
  have hcount : (countEvent s).threadStacks = s.threadStacks := rfl
  rw [processEvent, processKind, ← hcount]
  cases hkind : kindOf ev with
  | call => exact absurd hkind hcall
  | ret => exact absurd hkind hret
  | write => exact (congrArg Kept.threadStacks (fixed_processWrite host ev (countEvent s)) :)
  | alloc => exact (congrArg Kept.threadStacks (kept_processAlloc host ev (countEvent s)) :)
  | free => exact (congrArg Kept.threadStacks (kept_processFree ev (countEvent s)) :)
  | moduleLoad =>
      simp only [processModuleLoad]
      split <;> rfl
  | _ => rfl

theorem threadStacks_call (hkind : kindOf ev = .call) :
    (processEvent host ev s).threadStacks = match s.callee ev.addr with
      | some f => Function.update s.threadStacks ev.threadId
          (some (((s.threadStacks ev.threadId).getD {}).pushCall ⟨s.nextFrameId, ev.addr, f.name⟩))
      | none => s.threadStacks := by
  rw [processEvent, processKind, hkind]
  simp only [processCall]
  split
  · rename_i f hf
    rw [show s.callee ev.addr = some f from hf]
    rfl
  · rename_i hnone
    rw [show s.callee ev.addr = none from hnone]
    rfl

theorem threadStacks_ret (hkind : kindOf ev = .ret) :
    (processEvent host ev s).threadStacks = match s.threadStacks ev.threadId with
      | some stack => Function.update s.threadStacks ev.threadId (some stack.popReturn.1)
      | none => s.threadStacks := by
  have hretire (fid : FrameId) (t : State) : (retireFrame fid t).threadStacks = t.threadStacks := by
    rw [retireFrame]
    split
    · split <;> rfl
    · rfl
  rw [processEvent, processKind, hkind]
  simp only [processReturn, State.withRegs, countEvent]
  cases s.threadStacks ev.threadId with
  | none => rfl
  | some stack =>
      dsimp only
      split
      · rfl
      · exact hretire ..

/-- A WRITE leaves the register files' stacks. -/
theorem callStack_registered (ev : Event) (s : State) (tid : UInt16) :
    ((Write.registered ev s).regFile tid).callStack = (s.regFile tid).callStack := by
  have hobserve : ((Write.observe ev (Write.recordLine ev s).1).regFile tid).callStack =
      (s.regFile tid).callStack := by
    rw [Write.observe]
    split
    · rfl
    · split
      · rw [regFile_withRegs]
        split
        · exact ShadowRegisterFile.callStack_update (.observeWrite ..)
        · rfl
      · rfl
  rw [Write.registered, ← hobserve, Write.cohere]
  split
  · simp only [State.regFile]
    split
    · rfl
    · cases (Write.observe ev (Write.recordLine ev s).1).shadowRegs tid <;> rfl
  · rfl

/-- A return takes the callee off the register file's stack. -/
theorem callStack_returnRegs (ev : Event) (info : Option DwarfInfo) (f : ShadowRegisterFile) :
    (returnRegs ev info f).callStack = f.callStack.tail := by
  rw [returnRegs]
  split
  · exact ShadowRegisterFile.callStack_onReturn ..
  · exact ShadowRegisterFile.callStack_onReturn ..

/-- The register files' stacks behind an event. -/
theorem callStack_processEvent (host : Host) (ev : Event) (s : State) (tid : UInt16) :
    (((processEvent host ev s).regFile tid).callStack).map RegFrame.calleePc =
      if kindOf ev = .call ∧ ev.threadId = tid then
        ev.addr :: (s.regFile tid).callStack.map RegFrame.calleePc
      else if kindOf ev = .ret ∧ ev.threadId = tid then
        ((s.regFile tid).callStack.map RegFrame.calleePc).tail
      else (s.regFile tid).callStack.map RegFrame.calleePc := by
  have hregs := shadowRegs_processEvent host ev s
  cases hkind : kindOf ev with
  | write =>
      simp only [hkind] at hregs
      rw [regFile_of_shadowRegs hregs, callStack_registered]
      rfl
  | call =>
      simp only [hkind] at hregs
      rw [regFile_of_withRegs hregs]
      by_cases htid : tid = ev.threadId
      · simp [htid, ShadowRegisterFile.onCall]
      · simp [htid, Ne.symm htid]
  | ret =>
      simp only [hkind] at hregs
      rw [regFile_of_withRegs hregs]
      by_cases htid : tid = ev.threadId
      · simp [htid, callStack_returnRegs, List.map_tail]
      · simp [htid, Ne.symm htid]
  | reload =>
      simp only [hkind] at hregs
      rw [regFile_of_withRegs hregs]
      split
      · exact congrArg (List.map RegFrame.calleePc)
          (ShadowRegisterFile.callStack_update (.onReload ..))
      · rfl
  | _ =>
      simp only [hkind] at hregs
      rw [regFile_of_shadowRegs hregs]
      rfl

end Stacks

/-- A run of the engine on any inputs. -/
def State.feed (inputs : List Input) (s : State) : State := inputs.foldl (fun s i => i.apply s) s

namespace ShadowStack

/-- A push numbers its frame only. -/
theorem unnumbered_pushCall {a b : ShadowStack} (h : a.unnumbered = b.unnumbered)
    (n m : FrameId) (pc : UInt64) (name : String) :
    (a.pushCall ⟨n, pc, name⟩).unnumbered = (b.pushCall ⟨m, pc, name⟩).unnumbered := by
  have hframes := congrArg ShadowStack.frames h
  have hmismatches := congrArg ShadowStack.mismatches h
  have hdepth := congrArg ShadowStack.maxDepth h
  have hlength : a.frames.length = b.frames.length := by
    simpa [unnumbered] using congrArg List.length hframes
  simp only [unnumbered] at hframes hmismatches hdepth
  simp only [unnumbered, pushCall, List.map_cons, hframes, hmismatches, hdepth, hlength]

theorem unnumbered_popReturn {a b : ShadowStack} (h : a.unnumbered = b.unnumbered) :
    a.popReturn.1.unnumbered = b.popReturn.1.unnumbered := by
  cases a with
  | mk fs ma da =>
      cases b with
      | mk gs mb db =>
          cases fs <;> cases gs <;> simp_all [unnumbered, popReturn]

end ShadowStack

section Views
variable {s t : State} {tid : UInt16} {i : Input}

theorem callView_eq (hlookups : s.lookups = t.lookups)
    (hstack : (s.threadStacks tid).map ShadowStack.unnumbered =
      (t.threadStacks tid).map ShadowStack.unnumbered)
    (hcallees : (s.regFile tid).callStack.map RegFrame.calleePc =
      (t.regFile tid).callStack.map RegFrame.calleePc) : s.callView tid = t.callView tid := by
  rw [State.callView, State.callView, hlookups, hstack, hcallees]

/-- A register snapshot moves no stack. -/
theorem callView_snapshot (u : SnapshotUpdate) (s : State) (tid : UInt16) :
    (applySnapshotUpdate u s).callView tid = s.callView tid := by
  refine callView_eq rfl rfl ?_
  rw [applySnapshotUpdate, regFile_withRegs]
  split
  · exact congrArg _ (ShadowRegisterFile.callStack_update (.applySnapshot ..))
  · rfl

/-- The merge of the libraries adds functions; the stacks stay. -/
theorem stacks_libraries (host : Host) (modtab : List Module) (s : State) :
    (populateLibGlobals host modtab s).1.threadStacks = s.threadStacks ∧
      (populateLibGlobals host modtab s).1.shadowRegs = s.shadowRegs := by
  rw [populateLibGlobals]
  split
  · exact ⟨rfl, rfl⟩
  · split
    · exact ⟨rfl, rfl⟩
    · split
      · exact ⟨rfl, rfl⟩
      · exact ⟨rfl, rfl⟩

/-- Another thread's call or return, and any event but these and a module load. -/
theorem callView_event_other {ev : Event} (host : Host) (hload : kindOf ev ≠ .moduleLoad)
    (hown : kindOf ev = .call ∨ kindOf ev = .ret → ev.threadId ≠ tid) :
    (processEvent host ev s).callView tid = s.callView tid := by
  have hstack : (processEvent host ev s).threadStacks tid = s.threadStacks tid := by
    by_cases hcall : kindOf ev = .call
    · rw [threadStacks_call hcall]
      split
      · exact Function.update_of_ne (hown (.inl hcall)).symm ..
      · rfl
    · by_cases hret : kindOf ev = .ret
      · rw [threadStacks_ret hret]
        split
        · exact Function.update_of_ne (hown (.inr hret)).symm ..
        · rfl
      · rw [threadStacks_of_ne hcall hret]
  refine callView_eq (lookups_processEvent_of_ne hload) (by rw [hstack]) ?_
  rw [callStack_processEvent, if_neg fun h => hown (.inl h.1) h.2,
    if_neg fun h => hown (.inr h.1) h.2]

/-- An input that does not concern the thread leaves its view. -/
theorem callView_of_not_concerns (h : i.concerns tid = false) :
    (i.apply s).callView tid = s.callView tid := by
  cases i with
  | event host ev =>
      simp only [Input.concerns, Bool.or_eq_false_iff, beq_eq_false_iff_ne, ne_eq] at h
      refine callView_event_other host h.1 fun hown htid => ?_
      have hkind : (kindOf ev == .call || kindOf ev == .ret) = true := by
        rw [Bool.or_eq_true, beq_iff_eq, beq_iff_eq]
        exact hown
      rw [hkind, htid, beq_self_eq_true] at h
      exact Bool.false_ne_true h.2.symm
  | snapshot u => exact callView_snapshot u s tid
  | libraries host modtab => exact absurd h Bool.false_ne_true.symm

/-- Two states that know the same functions and hold the same stacks of a thread still do
behind an event. -/
theorem stack_congr {ev : Event} (host : Host) (hlookups : s.lookups = t.lookups)
    (hstack : (s.threadStacks tid).map ShadowStack.unnumbered =
      (t.threadStacks tid).map ShadowStack.unnumbered) :
    ((processEvent host ev s).threadStacks tid).map ShadowStack.unnumbered =
      ((processEvent host ev t).threadStacks tid).map ShadowStack.unnumbered := by
  by_cases hcall : kindOf ev = .call
  · rw [threadStacks_call hcall, threadStacks_call hcall, callee_of_lookups hlookups]
    split
    · rename_i f hf
      by_cases htid : tid = ev.threadId
      · subst htid
        rw [Function.update_self, Function.update_self, Option.map_some, Option.map_some]
        refine congrArg some (ShadowStack.unnumbered_pushCall ?_ ..)
        cases hs : s.threadStacks ev.threadId <;> cases ht : t.threadStacks ev.threadId <;>
          simp_all
      · rw [Function.update_of_ne htid, Function.update_of_ne htid, hstack]
    · exact hstack
  · by_cases hret : kindOf ev = .ret
    · rw [threadStacks_ret hret, threadStacks_ret hret]
      by_cases htid : tid = ev.threadId
      · subst htid
        cases hs : s.threadStacks ev.threadId with
        | none => cases ht : t.threadStacks ev.threadId <;> simp_all
        | some a =>
            cases ht : t.threadStacks ev.threadId with
            | none => simp_all
            | some b =>
                rw [hs, ht] at hstack
                have hab := ShadowStack.unnumbered_popReturn (Option.some.inj hstack)
                simp only [Function.update_self, Option.map_some, hab]
      · have hother (x : State) : (match x.threadStacks ev.threadId with
            | some stack => Function.update x.threadStacks ev.threadId (some stack.popReturn.1)
            | none => x.threadStacks) tid = x.threadStacks tid := by
          cases x.threadStacks ev.threadId with
          | none => rfl
          | some stack => exact Function.update_of_ne htid ..
        rw [hother, hother, hstack]
    · rw [threadStacks_of_ne hcall hret, threadStacks_of_ne hcall hret, hstack]

/-- States with the same view go to states with the same view. -/
theorem callView_congr (h : s.callView tid = t.callView tid) :
    (i.apply s).callView tid = (i.apply t).callView tid := by
  have hlookups : s.lookups = t.lookups := congrArg CallView.lookups h
  have hstack : (s.threadStacks tid).map ShadowStack.unnumbered =
      (t.threadStacks tid).map ShadowStack.unnumbered := congrArg CallView.stack h
  have hcallees : (s.regFile tid).callStack.map RegFrame.calleePc =
      (t.regFile tid).callStack.map RegFrame.calleePc := congrArg CallView.callees h
  cases i with
  | event host ev =>
      refine callView_eq ?_ (stack_congr host hlookups hstack) ?_
      · by_cases hload : kindOf ev = .moduleLoad
        · exact (lookups_moduleLoad hload).trans
            ((congrArg (placed ev) hlookups).trans (lookups_moduleLoad hload).symm)
        · exact (lookups_processEvent_of_ne hload).trans
            (hlookups.trans (lookups_processEvent_of_ne hload).symm)
      · rw [Input.apply, Input.apply, callStack_processEvent, callStack_processEvent, hcallees]
  | snapshot u =>
      exact (callView_snapshot u s tid).trans (h.trans (callView_snapshot u t tid).symm)
  | libraries host modtab =>
      have hs := stacks_libraries host modtab s
      have ht := stacks_libraries host modtab t
      refine callView_eq (lookups_libraries host modtab hlookups) ?_ ?_
      · rw [Input.apply, Input.apply, hs.1, ht.1, hstack]
      · rw [Input.apply, Input.apply, regFile_of_shadowRegs hs.2, regFile_of_shadowRegs ht.2,
          hcallees]

/-- Two runs on the same inputs keep equal views equal. -/
theorem callView_feed_congr (inputs : List Input) (h : s.callView tid = t.callView tid) :
    (s.feed inputs).callView tid = (t.feed inputs).callView tid := by
  induction inputs generalizing s t with
  | nil => exact h
  | cons i is ih => exact ih (callView_congr h)

/-- Whatever the other threads do in between, a thread's call stack is the one that its
own calls and returns make, with the module loads and the merges of the libraries. -/
theorem callView_feed (tid : UInt16) (inputs : List Input) (s : State) :
    (s.feed inputs).callView tid = (s.feed (inputs.filter (Input.concerns tid))).callView tid := by
  induction inputs generalizing s with
  | nil => rfl
  | cons i is ih =>
      cases hi : i.concerns tid with
      | true =>
          rw [List.filter_cons_of_pos hi]
          exact ih (i.apply s)
      | false =>
          rw [List.filter_cons_of_neg (by rw [hi]; exact Bool.false_ne_true)]
          exact (callView_feed_congr is (callView_of_not_concerns hi)).trans (ih s)

end Views

end Rtmap.Engine
