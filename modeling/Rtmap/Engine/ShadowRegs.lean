import Mathlib.Algebra.GroupWithZero.Nat
import Rtmap.Engine.Types

/-!
# Shadow registers

The per-thread register file the engine keeps: a value with its provenance and
confidence for each register, and the stack of register files saved at calls.
-/
namespace Rtmap.Engine

abbrev RegIdx := Fin 18

-- for the literals and the membership tests of registers
instance neZeroRegs : NeZero 18 := ⟨by decide⟩
instance lawfulBEqRegIdx : LawfulBEq RegIdx := inferInstance

def CALLEE_SAVED : List RegIdx := [1, 6, 12, 13, 14, 15]
def CALLER_SAVED : List RegIdx := [0, 2, 3, 4, 5, 8, 9, 10, 11]
def ARG_REGS : List RegIdx := [5, 4, 3, 2, 8, 9]

/-- DWARF register number to register-file index; 1 is rdx, 2 rcx, 3 rbx. -/
def DWARF_TO_IDX : List RegIdx := [0, 3, 2, 1, 4, 5, 6, 7, 8, 9, 10, 11, 12, 13, 14, 15, 16]

def dwarfRegToIdx (dwarfReg : UInt16) : Option RegIdx := DWARF_TO_IDX[dwarfReg.toNat]?

inductive Confidence where
  | unknown | stale | speculative | writeBack | abiInferred | cfiVerified | observed
deriving DecidableEq, Repr

/-- The derived order of the enumeration. -/
def Confidence.rank : Confidence → ℕ
  | .unknown => 0
  | .stale => 1
  | .speculative => 2
  | .writeBack => 3
  | .abiInferred => 4
  | .cfiVerified => 5
  | .observed => 6

inductive Provenance where
  | observed (eventSeq : ℕ)
  | calleeSaved (sinceSeq : ℕ)
  | abiArg (calleePc : UInt64) (argIndex : UInt8)
  | writeBack (writeSeq : ℕ) (retroactivePc : UInt64)
  | reload (fromAddr : UInt64) (reloadSeq : ℕ)
  | returnValue (calleePc : UInt64) (retSeq : ℕ)
  | unknown
deriving DecidableEq, Repr

structure ShadowReg where
  value : UInt64 := 0
  provenance : Provenance := .unknown
  confidence : Confidence := .unknown
  lastSeq : ℕ := 0
  lastPc : UInt64 := 0
  memSource : Option UInt64 := none
  memSourceSize : UInt32 := 0
deriving DecidableEq, Repr

/-- `ShadowReg::set`: every field anew, without a memory source. -/
def ShadowReg.set (value : UInt64) (prov : Provenance) (conf : Confidence) (seq : ℕ)
    (pc : UInt64) : ShadowReg where
  value := value
  provenance := prov
  confidence := conf
  lastSeq := seq
  lastPc := pc

@[simp] theorem ShadowReg.memSource_set (value : UInt64) (prov : Provenance) (conf : Confidence)
    (seq : ℕ) (pc : UInt64) : (set value prov conf seq pc).memSource = none := rfl

@[simp] theorem ShadowReg.confidence_set (value : UInt64) (prov : Provenance) (conf : Confidence)
    (seq : ℕ) (pc : UInt64) : (set value prov conf seq pc).confidence = conf := rfl

abbrev Regs := RegIdx → ShadowReg

/-- A frame of the register file's own call stack. -/
structure RegFrame where
  calleePc : UInt64
  savedRegs : Regs

/-- Registers and the frames saved at calls, the innermost first. -/
structure ShadowRegisterFile where
  regs : Regs := fun _ => {}
  callStack : List RegFrame := []

namespace ShadowRegisterFile

def values (f : ShadowRegisterFile) : RegIdx → UInt64 := fun i => (f.regs i).value

/-- `apply_snapshot`. -/
def applySnapshot (f : ShadowRegisterFile) (values : RegIdx → UInt64) (seq : ℕ) (pc : UInt64) :
    ShadowRegisterFile :=
  { f with regs := fun i => .set (values i) (.observed seq) .observed seq pc }

/-- The register a local lives in at `pc`. -/
def homeRegister (pc : UInt64) (l : LocalVar) : Option RegIdx :=
  match l.location.lookup pc with
  | some (.register r) => dwarfRegToIdx r
  | _ => none

/-- `observe_write`: the value goes to the home register of every local of the function. -/
def observeWrite (f : ShadowRegisterFile) (value pc : UInt64) (seq : ℕ)
    (func : Option FunctionMeta) : ShadowRegisterFile :=
  match func with
  | none => f
  | some func =>
      { f with
        regs := func.locals.foldl (fun regs l =>
          match homeRegister pc l with
          | some i => Function.update regs i (.set value (.writeBack seq pc) .writeBack seq pc)
          | none => regs) f.regs }

def calleePc (f : ShadowRegisterFile) : Option UInt64 := f.callStack.head?.map RegFrame.calleePc

/-- `on_call`. -/
def onCall (f : ShadowRegisterFile) (calleePc rsp : UInt64) (seq : ℕ) : ShadowRegisterFile where
  callStack := ⟨calleePc, f.regs⟩ :: f.callStack
  regs i :=
    if i = 7 then .set rsp (.observed seq) .observed seq calleePc
    else if i ∈ CALLEE_SAVED then
      if (f.regs i).confidence.rank ≥ Confidence.speculative.rank then
        .set (f.regs i).value (.calleeSaved seq) .abiInferred seq calleePc
      else f.regs i
    else if i ∈ CALLER_SAVED then
      .set (f.regs i).value
        (.abiArg calleePc (UInt8.ofNat ((ARG_REGS.findIdx? (· = i)).getD 0xff)))
        .speculative seq calleePc
    else f.regs i

/-- `on_return`. -/
def onReturn (f : ShadowRegisterFile) (seq : ℕ) (pc : UInt64) : ShadowRegisterFile :=
  match f.callStack with
  | [] => f
  | frame :: rest =>
      { callStack := rest
        regs := fun i =>
          if i = 0 then
            .set (f.regs 0).value (.returnValue frame.calleePc seq) .speculative seq pc
          else if i ∈ CALLEE_SAVED ∨ i ∈ CALLER_SAVED then frame.savedRegs i
          else f.regs i }

/-- `on_return_cfi`: what the unwind table lists as saved is verified. -/
def onReturnCfi (f : ShadowRegisterFile) (seq : ℕ) (pc : UInt64) (cfiSaved : List ℕ) :
    ShadowRegisterFile :=
  let g := f.onReturn seq pc
  { g with
    regs := fun i =>
      if i.val ∈ cfiSaved ∧ i ∈ CALLEE_SAVED ∧
          (g.regs i).confidence.rank ≥ Confidence.speculative.rank ∧
          (g.regs i).confidence.rank < Confidence.observed.rank then
        { g.regs i with confidence := .cfiVerified }
      else g.regs i }

/-- `on_reload`. -/
def onReload (f : ShadowRegisterFile) (regIdx : ℕ) (value fromAddr : UInt64) (loadSize : UInt32)
    (seq : ℕ) (pc : UInt64) : ShadowRegisterFile :=
  if h : regIdx < 18 then
    { f with
      regs := Function.update f.regs ⟨regIdx, h⟩
        { ShadowReg.set value (.reload fromAddr seq) .observed seq pc with
          memSource := some fromAddr
          memSourceSize := loadSize } }
  else f

/-- The written range meets the register's memory source. -/
def overlaps (r : ShadowReg) (writtenAddr : UInt64) (writeSize : UInt32) : Bool :=
  match r.memSource with
  | none => false
  | some src =>
      writtenAddr < saturatingAdd src (max r.memSourceSize 1).toUInt64 &&
        src < saturatingAdd writtenAddr (max writeSize 1).toUInt64

/-- `check_coherence` on one register: a write of more than eight bytes, or of
another value, into the source lowers it to stale. -/
def coherent (r : ShadowReg) (writtenAddr writtenValue : UInt64) (writeSize : UInt32) :
    ShadowReg :=
  if overlaps r writtenAddr writeSize ∧ (writeSize > 8 ∨ r.value ≠ writtenValue) ∧
      r.confidence.rank > Confidence.stale.rank then
    { r with confidence := .stale }
  else r

/-- `check_coherence`. -/
def checkCoherence (f : ShadowRegisterFile) (writtenAddr writtenValue : UInt64)
    (writeSize : UInt32) : ShadowRegisterFile :=
  { f with regs := fun i => coherent (f.regs i) writtenAddr writtenValue writeSize }

end ShadowRegisterFile

end Rtmap.Engine
