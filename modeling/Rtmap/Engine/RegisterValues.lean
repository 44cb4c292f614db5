import Rtmap.Engine.Coherence
import Rtmap.Engine.Uncounted
import Rtmap.Engine.Untyped

/-!
# The values of the shadow registers

What the registers and the saved frames hold does not depend on how far the values are
trusted: the coherence of the cache lines lowers confidence and moves no value.
-/
namespace Rtmap.Engine
open Rtmap.Ring

/-- A register's value and nothing else of it. -/
def ShadowReg.bare (r : ShadowReg) : ShadowReg := { value := r.value }

namespace ShadowRegisterFile

/-- The values of a file and of the frames it saved. -/
def bare (f : ShadowRegisterFile) : ShadowRegisterFile where
  regs i := (f.regs i).bare
  callStack := f.callStack.map fun frame => ⟨frame.calleePc, fun i => (frame.savedRegs i).bare⟩

variable {f g : ShadowRegisterFile}

theorem bare_regs (h : f.bare = g.bare) (i : RegIdx) : (f.regs i).value = (g.regs i).value := by
  have hregs := congrArg ShadowRegisterFile.regs h
  have hvalue := congrArg ShadowReg.value (congrFun hregs i)
  exact hvalue

theorem calleePc_of_bare (h : f.bare = g.bare) : f.calleePc = g.calleePc := by
  have hcallee (x : ShadowRegisterFile) : x.bare.calleePc = x.calleePc := by
    rw [calleePc, calleePc, bare, List.head?_map, Option.map_map]
    rfl
  rw [← hcallee, h, hcallee]

/-- Files of the same values and frames. -/
theorem bare_ext (hregs : ∀ i, (f.regs i).value = (g.regs i).value)
    (hstack : f.bare.callStack = g.bare.callStack) : f.bare = g.bare := by
  have hbare : f.bare.regs = g.bare.regs := by
    funext i
    exact congrArg (fun v => ({ value := v } : ShadowReg)) (hregs i)
  calc f.bare = ⟨f.bare.regs, f.bare.callStack⟩ := rfl
    _ = ⟨g.bare.regs, g.bare.callStack⟩ := by rw [hbare, hstack]

theorem bare_checkCoherence (addr value : UInt64) (size : UInt32) :
    (f.checkCoherence addr value size).bare = f.bare := by
  refine bare_ext (fun i => ?_) rfl
  rw [checkCoherence]
  dsimp only
  rw [coherent]
  split <;> rfl

theorem bare_applySnapshot (h : f.bare = g.bare) (values : RegIdx → UInt64) (seq : ℕ) (pc : UInt64) :
    (f.applySnapshot values seq pc).bare = (g.applySnapshot values seq pc).bare := by
  have hstack := congrArg ShadowRegisterFile.callStack h
  exact bare_ext (fun _ => rfl) hstack

/-- What `observe_write` does for one local. -/
def observeLocal (value pc : UInt64) (seq : ℕ) (regs : Regs) (l : LocalVar) : Regs :=
  match homeRegister pc l with
  | some i => Function.update regs i (.set value (.writeBack seq pc) .writeBack seq pc)
  | none => regs

theorem bare_observeWrite (h : f.bare = g.bare) (value pc : UInt64) (seq : ℕ)
    (func : Option FunctionMeta) :
    (f.observeWrite value pc seq func).bare = (g.observeWrite value pc seq func).bare := by
  cases func with
  | none => exact h
  | some func =>
      have hfold (ls : List LocalVar) : ∀ a b : Regs, (∀ i, (a i).value = (b i).value) → ∀ i,
          (ls.foldl (observeLocal value pc seq) a i).value =
            (ls.foldl (observeLocal value pc seq) b i).value := by
        induction ls with
        | nil => exact fun _ _ hab => hab
        | cons l ls ih =>
            intro a b hab
            refine ih _ _ fun i => ?_
            unfold observeLocal
            cases homeRegister pc l with
            | none => exact hab i
            | some home =>
                dsimp only
                by_cases hi : i = home
                · rw [hi, Function.update_self, Function.update_self]
                · rw [Function.update_of_ne hi, Function.update_of_ne hi]
                  exact hab i
      have hstack := congrArg ShadowRegisterFile.callStack h
      exact bare_ext (hfold func.locals _ _ (bare_regs h)) hstack

theorem bare_onCall (h : f.bare = g.bare) (calleePc rsp : UInt64) (seq : ℕ) :
    (f.onCall calleePc rsp seq).bare = (g.onCall calleePc rsp seq).bare := by
  have hcalled (x : ShadowRegisterFile) (i : RegIdx) : ((x.onCall calleePc rsp seq).regs i).value =
      if i = 7 then rsp else (x.regs i).value := by
    rw [onCall]
    dsimp only
    split
    · rfl
    · split
      · split <;> rfl
      · split <;> rfl
  have hstack (x : ShadowRegisterFile) : (x.onCall calleePc rsp seq).bare.callStack =
      ⟨calleePc, x.bare.regs⟩ :: x.bare.callStack := rfl
  refine bare_ext (fun i => ?_) ?_
  · rw [hcalled, hcalled, bare_regs h]
  · rw [hstack, hstack, h]

/-- The values after a return. -/
def returned (f : ShadowRegisterFile) : ShadowRegisterFile :=
  match f.callStack with
  | [] => f
  | frame :: rest =>
      { callStack := rest
        regs := fun i => if i = 0 then f.regs i
          else if i ∈ CALLEE_SAVED ∨ i ∈ CALLER_SAVED then frame.savedRegs i
          else f.regs i }

theorem bare_onReturn (h : f.bare = g.bare) (seq : ℕ) (pc : UInt64) :
    (f.onReturn seq pc).bare = (g.onReturn seq pc).bare := by
  have hreturned (x : ShadowRegisterFile) : (x.onReturn seq pc).bare = x.bare.returned := by
    obtain ⟨regs, callStack⟩ := x
    cases callStack with
    | nil => rfl
    | cons frame rest =>
        refine congrArg (ShadowRegisterFile.mk · _) (funext fun i => ?_)
        dsimp only [onReturn]
        by_cases hzero : i = 0
        · rw [if_pos hzero, if_pos hzero, hzero]
          rfl
        · rw [if_neg hzero, if_neg hzero]
          split <;> rfl
  rw [hreturned, hreturned, h]

theorem bare_onReturnCfi (h : f.bare = g.bare) (seq : ℕ) (pc : UInt64) (cfiSaved : List ℕ) :
    (f.onReturnCfi seq pc cfiSaved).bare = (g.onReturnCfi seq pc cfiSaved).bare := by
  have hverified (x : ShadowRegisterFile) :
      (x.onReturnCfi seq pc cfiSaved).bare = (x.onReturn seq pc).bare := by
    refine bare_ext (fun i => ?_) rfl
    rw [onReturnCfi]
    dsimp only
    split <;> rfl
  rw [hverified, hverified, bare_onReturn h]

theorem bare_onReload (h : f.bare = g.bare) (regIdx : ℕ) (value fromAddr : UInt64)
    (loadSize : UInt32) (seq : ℕ) (pc : UInt64) :
    (f.onReload regIdx value fromAddr loadSize seq pc).bare =
      (g.onReload regIdx value fromAddr loadSize seq pc).bare := by
  rw [onReload, onReload]
  split
  · rename_i hidx
    have hstack := congrArg ShadowRegisterFile.callStack h
    refine bare_ext (fun i => ?_) hstack
    dsimp only
    by_cases hi : i = ⟨regIdx, hidx⟩
    · rw [hi, Function.update_self, Function.update_self]
    · rw [Function.update_of_ne hi, Function.update_of_ne hi]
      exact bare_regs h i
  · exact h

end ShadowRegisterFile

/-- The values of every thread's file. -/
def State.bareRegs (s : State) : UInt16 → Option ShadowRegisterFile :=
  fun tid => (s.shadowRegs tid).map ShadowRegisterFile.bare

section Events
variable {host : Host} {ev : Event} {s t : State}

theorem bare_regFile (h : s.bareRegs = t.bareRegs) (tid : UInt16) :
    (s.regFile tid).bare = (t.regFile tid).bare := by
  have hfile (x : State) : (x.regFile tid).bare = (x.bareRegs tid).getD {} := by
    rw [State.regFile, State.bareRegs]
    cases x.shadowRegs tid <;> rfl
  rw [hfile, hfile, h]

theorem bareRegs_of_shadowRegs (h : s.shadowRegs = t.shadowRegs) : s.bareRegs = t.bareRegs :=
  congrArg (fun regs tid => (regs tid : Option ShadowRegisterFile).map ShadowRegisterFile.bare) h

theorem bareRegs_withRegs (tid : UInt16) {f g : ShadowRegisterFile → ShadowRegisterFile}
    (h : s.bareRegs = t.bareRegs)
    (hfg : ∀ a b : ShadowRegisterFile, a.bare = b.bare → (f a).bare = (g b).bare) :
    (s.withRegs tid f).bareRegs = (t.withRegs tid g).bareRegs := by
  have hupdated (x : State) (k : ShadowRegisterFile → ShadowRegisterFile) :
      (x.withRegs tid k).bareRegs =
        Function.update x.bareRegs tid (some (k (x.regFile tid)).bare) :=
    Function.comp_update (Option.map ShadowRegisterFile.bare) x.shadowRegs tid _
  rw [hupdated, hupdated, h, hfg _ _ (bare_regFile h tid)]

theorem bareRegs_registered (h : s.bareRegs = t.bareRegs) (huntyped : s.untyped = t.untyped) :
    (Write.registered ev s).bareRegs = (Write.registered ev t).bareRegs := by
  have hcohere (writers : UInt16) (x : State) :
      (Write.cohere ev writers x).bareRegs = x.bareRegs := by
    rw [Write.cohere]
    split
    · funext tid
      dsimp only [State.bareRegs]
      split
      · rfl
      · rw [Option.map_map]
        refine congrArg (fun k => (x.shadowRegs tid).map k) (funext fun f => ?_)
        exact ShadowRegisterFile.bare_checkCoherence ..
    · rfl
  have hidx := congrArg State.addrIndex huntyped
  have hdelta := congrArg State.relocationDelta huntyped
  have hdwarf : s.dwarfInfo.map DwarfInfo.static = t.dwarfInfo.map DwarfInfo.static :=
    congrArg State.dwarfInfo huntyped
  have hobserved (x : State) : (Write.registered ev x).bareRegs =
      (x.dwarfInfo.map DwarfInfo.static).elim x.bareRegs fun info =>
        if !ev.isContinuation && x.addrIndex.inUniverse ev.addr then
          (x.withRegs ev.threadId fun f => f.observeWrite (writeValue ev) (x.elfPc ev.addr)
            (seqOf ev) (info.funcContaining (x.elfPc ev.addr))).bareRegs
        else x.bareRegs := by
    rw [Write.registered, hcohere, Write.observe]
    rw [show (Write.recordLine ev x).1.dwarfInfo = x.dwarfInfo from rfl]
    cases x.dwarfInfo with
    | none => rfl
    | some info =>
        dsimp only [Option.map_some, Option.elim]
        rw [show (Write.recordLine ev x).1.addrIndex = x.addrIndex from rfl]
        split <;> rfl
  have hpc : s.elfPc ev.addr = t.elfPc ev.addr := by
    rw [State.elfPc, State.elfPc, show s.relocationDelta = t.relocationDelta from hdelta]
  rw [hobserved, hobserved, hdwarf, hpc, show s.addrIndex = t.addrIndex from hidx]
  cases t.dwarfInfo.map DwarfInfo.static with
  | none => exact h
  | some info =>
      dsimp only [Option.elim]
      split
      · exact bareRegs_withRegs _ h fun _ _ hab => ShadowRegisterFile.bare_observeWrite hab ..
      · exact h

/-- An event takes states of the same register values to such states. -/
theorem bareRegs_processEvent (h : s.bareRegs = t.bareRegs) (huntyped : s.untyped = t.untyped) :
    (processEvent host ev s).bareRegs = (processEvent host ev t).bareRegs := by
  have hshadow (x : State) := shadowRegs_processEvent host ev x
  cases hkind : kindOf ev with
  | write =>
      simp only [hkind] at hshadow
      rw [bareRegs_of_shadowRegs (hshadow s), bareRegs_of_shadowRegs (hshadow t)]
      exact bareRegs_registered h (congrArg countEvent huntyped)
  | call =>
      simp only [hkind] at hshadow
      rw [bareRegs_of_shadowRegs (hshadow s), bareRegs_of_shadowRegs (hshadow t)]
      exact bareRegs_withRegs _ h fun _ _ hab => ShadowRegisterFile.bare_onCall hab ..
  | ret =>
      have hdwarf : s.dwarfInfo.map DwarfInfo.static = t.dwarfInfo.map DwarfInfo.static :=
        congrArg State.dwarfInfo huntyped
      have hrows (info : Option DwarfInfo) (f : ShadowRegisterFile) :
          returnRegs ev info f = returnRegs ev (info.map DwarfInfo.static) f := by
        cases info <;> rfl
      simp only [hkind] at hshadow
      rw [bareRegs_of_shadowRegs (hshadow s), bareRegs_of_shadowRegs (hshadow t)]
      refine bareRegs_withRegs _ h fun a b hab => ?_
      rw [hrows, hrows t.dwarfInfo, hdwarf, returnRegs, returnRegs,
        ShadowRegisterFile.calleePc_of_bare hab]
      split
      · exact ShadowRegisterFile.bare_onReturnCfi hab ..
      · exact ShadowRegisterFile.bare_onReturn hab ..
  | reload =>
      simp only [hkind] at hshadow
      rw [bareRegs_of_shadowRegs (hshadow s), bareRegs_of_shadowRegs (hshadow t)]
      exact bareRegs_withRegs _ h fun _ _ hab => ShadowRegisterFile.bare_onReload hab ..
  | _ =>
      simp only [hkind] at hshadow
      rw [bareRegs_of_shadowRegs (hshadow s), bareRegs_of_shadowRegs (hshadow t)]
      exact h

/-- A hazard carries the values of the writing thread's registers. -/
theorem snapshots_processEvent (host : Host) (ev : Event) (s : State) :
    ∃ k, (processEvent host ev s).world.hazards.map HeapHazard.regSnapshot =
      s.world.hazards.map HeapHazard.regSnapshot ++ List.replicate k
        (((processEvent host ev s).bareRegs ev.threadId).map ShadowRegisterFile.values) := by
  by_cases hwrite : kindOf ev = .write
  · let u := Write.registered ev (countEvent s)
    have hevent : processEvent host ev s = processWrite host ev (countEvent s) := by
      simp only [processEvent, processKind, hwrite]
    have hregs : (processEvent host ev s).bareRegs = u.bareRegs := by
      rw [hevent]
      exact bareRegs_of_shadowRegs (Write.shadowRegs_processWrite host)
    have hu : u.world.hazards = s.world.hazards := Write.hazards_registered
    have hkept : (Write.beforeBounds host ev (countEvent s)).kept = u.kept := by
      simp only [Write.beforeBounds, Write.kept_propagate, Write.kept_fields, Write.kept_graph]
      rfl
    have hbounds (x : State) (hhazards : x.world.hazards = s.world.hazards)
        (hshadow : x.shadowRegs = u.shadowRegs) :
        ∃ k, (Write.bounds ev x).world.hazards.map HeapHazard.regSnapshot =
          s.world.hazards.map HeapHazard.regSnapshot ++ List.replicate k
            ((u.bareRegs ev.threadId).map ShadowRegisterFile.values) := by
      have hsame : x.world.hazards.map HeapHazard.regSnapshot =
          s.world.hazards.map HeapHazard.regSnapshot ++ List.replicate 0
            ((u.bareRegs ev.threadId).map ShadowRegisterFile.values) := by
        rw [hhazards, List.replicate_zero, List.append_nil]
      rw [Write.bounds]
      split
      · split
        · exact ⟨0, hsame⟩
        · split
          · exact ⟨0, hsame⟩
          · refine ⟨1, ?_⟩
            dsimp only [State.emit]
            rw [List.map_append, hhazards, hshadow, State.bareRegs, Option.map_map]
            rfl
      · exact ⟨0, hsame⟩
    rw [hregs, hevent, processWrite_eq, Write.hazards_node]
    split
    · exact hbounds _ (Write.hazards_beforeBounds host ev _) (congrArg Kept.shadowRegs hkept)
    · refine ⟨0, ?_⟩
      rw [List.replicate_zero, List.append_nil]
      exact congrArg (List.map HeapHazard.regSnapshot) hu
  · obtain ⟨t, -, -, h⟩ := hazards_processEvent host ev s
    refine ⟨0, ?_⟩
    rw [h, if_neg fun hboth => hwrite hboth.1, List.replicate_zero, List.append_nil]

end Events

end Rtmap.Engine
