import Rtmap.Engine.Coherence

/-!
# Calls and the shadow registers

A call saves the whole register file and the return takes the registers of the calling
convention from there, whatever happened in between. rax, rsp, rip and rflags are not
among them.
-/
namespace Rtmap.Engine

namespace ShadowRegisterFile

/-- What a body does besides its calls. -/
inductive Update where
  | observeWrite (value pc : UInt64) (seq : ℕ) (func : Option FunctionMeta)
  | onReload (regIdx : ℕ) (value fromAddr : UInt64) (loadSize : UInt32) (seq : ℕ) (pc : UInt64)
  | applySnapshot (values : RegIdx → UInt64) (seq : ℕ) (pc : UInt64)
  | checkCoherence (writtenAddr writtenValue : UInt64) (writeSize : UInt32)

def Update.apply (f : ShadowRegisterFile) : Update → ShadowRegisterFile
  | .observeWrite value pc seq func => f.observeWrite value pc seq func
  | .onReload regIdx value fromAddr loadSize seq pc =>
      f.onReload regIdx value fromAddr loadSize seq pc
  | .applySnapshot values seq pc => f.applySnapshot values seq pc
  | .checkCoherence writtenAddr writtenValue writeSize =>
      f.checkCoherence writtenAddr writtenValue writeSize

/-- The two returns. -/
inductive Return where
  | plain (seq : ℕ) (pc : UInt64)
  | cfi (seq : ℕ) (pc : UInt64) (cfiSaved : List ℕ)

def Return.apply (f : ShadowRegisterFile) : Return → ShadowRegisterFile
  | .plain seq pc => f.onReturn seq pc
  | .cfi seq pc cfiSaved => f.onReturnCfi seq pc cfiSaved

/-- The registers that a return verifies. -/
def Return.verifies : Return → List ℕ
  | .plain .. => []
  | .cfi _ _ cfiSaved => cfiSaved

/-- An operation on a register file. -/
inductive Operation where
  | update (u : Update)
  | call (calleePc rsp : UInt64) (seq : ℕ)
  | ret (r : Return)

def Operation.apply (f : ShadowRegisterFile) : Operation → ShadowRegisterFile
  | .update u => u.apply f
  | .call calleePc rsp seq => f.onCall calleePc rsp seq
  | .ret r => r.apply f

def perform (f : ShadowRegisterFile) (ops : List Operation) : ShadowRegisterFile :=
  ops.foldl Operation.apply f

/-- A well-nested sequence: updates, and calls each with its own body and return. -/
inductive Body where
  | done
  | update (u : Update) (rest : Body)
  | call (calleePc rsp : UInt64) (seq : ℕ) (body : Body) (r : Return) (rest : Body)

/-- The operations of a body in their order. -/
def Body.ops : Body → List Operation
  | .done => []
  | .update u rest => .update u :: rest.ops
  | .call calleePc rsp seq body r rest =>
      .call calleePc rsp seq :: (body.ops ++ .ret r :: rest.ops)

/-- rax, rsp, rip and rflags. -/
def UNSAVED : List RegIdx := [0, 7, 16, 17]

theorem saved_of_not_mem_unsaved :
    ∀ i : RegIdx, i ∉ UNSAVED → i ≠ 0 ∧ (i ∈ CALLEE_SAVED ∨ i ∈ CALLER_SAVED) := by decide

/-- What is expected of a register after a call: its record of before, verified where the
unwind rows list it and it was trusted, but not observed. -/
def afterCall (r : Return) (i : RegIdx) (old : ShadowReg) : ShadowReg :=
  if i.val ∈ r.verifies ∧ i ∈ CALLEE_SAVED ∧
      Confidence.speculative.rank ≤ old.confidence.rank ∧
      old.confidence.rank < Confidence.observed.rank then
    { old with confidence := .cfiVerified }
  else old

section Stack
variable {f : ShadowRegisterFile}

/-- The updates leave the frames alone. -/
theorem callStack_update (u : Update) : (u.apply f).callStack = f.callStack := by
  cases u with
  | observeWrite value pc seq func => cases func <;> rfl
  | onReload regIdx value fromAddr loadSize seq pc =>
      rw [Update.apply, onReload]
      split <;> rfl
  | applySnapshot values seq pc => rfl
  | checkCoherence writtenAddr writtenValue writeSize => rfl

theorem callStack_onReturn (seq : ℕ) (pc : UInt64) :
    (f.onReturn seq pc).callStack = f.callStack.tail := by
  rw [onReturn]
  cases h : f.callStack with
  | nil => exact h
  | cons frame rest => rfl

theorem callStack_return (r : Return) : (r.apply f).callStack = f.callStack.tail := by
  cases r with
  | plain seq pc => exact callStack_onReturn seq pc
  | cfi seq pc cfiSaved => exact callStack_onReturn seq pc

/-- A body leaves the frames as they were. -/
theorem callStack_perform (b : Body) (f : ShadowRegisterFile) :
    (f.perform b.ops).callStack = f.callStack := by
  induction b generalizing f with
  | done => rfl
  | update u rest ih => exact (ih _).trans (callStack_update u)
  | call calleePc rsp seq body r rest ihBody ihRest =>
      have hsplit : f.perform (Body.call calleePc rsp seq body r rest).ops =
          (r.apply ((f.onCall calleePc rsp seq).perform body.ops)).perform rest.ops := by
        rw [perform, Body.ops, List.foldl_cons, List.foldl_append, List.foldl_cons]
        rfl
      rw [hsplit, ihRest, callStack_return, ihBody]
      rfl

end Stack

section Registers
variable {f : ShadowRegisterFile} {frame : RegFrame} {rest : List RegFrame} {i : RegIdx}

/-- A return takes the register from the frame. -/
theorem regs_onReturn (hf : f.callStack = frame :: rest) (hi : i ∉ UNSAVED) (seq : ℕ)
    (pc : UInt64) : (f.onReturn seq pc).regs i = frame.savedRegs i := by
  obtain ⟨hzero, hsaved⟩ := saved_of_not_mem_unsaved i hi
  rw [onReturn, hf]
  dsimp only
  rw [if_neg hzero, if_pos hsaved]

theorem regs_return (hf : f.callStack = frame :: rest) (hi : i ∉ UNSAVED) (r : Return) :
    (r.apply f).regs i = afterCall r i (frame.savedRegs i) := by
  cases r with
  | plain seq pc =>
      rw [afterCall, if_neg fun h => List.not_mem_nil h.1]
      exact regs_onReturn hf hi seq pc
  | cfi seq pc cfiSaved =>
      rw [Return.apply, onReturnCfi, afterCall]
      dsimp only
      rw [regs_onReturn hf hi]
      rfl

end Registers

/-- A call with any well-nested body and its return leaves the call stack as it was, and every
register but rax, rsp, rip and rflags, except that a return by the unwind rows verifies the
callee-saved registers listed that were at least speculative and not observed. -/
theorem call_restores (f : ShadowRegisterFile) (calleePc rsp : UInt64) (seq : ℕ) (body : Body)
    (r : Return) :
    (f.perform (.call calleePc rsp seq :: (body.ops ++ [.ret r]))).callStack = f.callStack ∧
      ∀ i ∉ UNSAVED, (f.perform (.call calleePc rsp seq :: (body.ops ++ [.ret r]))).regs i =
        afterCall r i (f.regs i) := by
  have hperform : f.perform (.call calleePc rsp seq :: (body.ops ++ [.ret r])) =
      r.apply ((f.onCall calleePc rsp seq).perform body.ops) := by
    rw [perform, List.foldl_cons, List.foldl_append]
    rfl
  -- at the return the frame of this call is the innermost again
  have hstack : ((f.onCall calleePc rsp seq).perform body.ops).callStack =
      ⟨calleePc, f.regs⟩ :: f.callStack := callStack_perform body _
  rw [hperform]
  refine ⟨?_, fun i hi => regs_return hstack hi r⟩
  rw [callStack_return, hstack]
  rfl

end ShadowRegisterFile

end Rtmap.Engine
