import Rtmap.Engine.Coherence
import Rtmap.Engine.Freshness
import Rtmap.Engine.Replay

/-!
# Registers that a write is taken back to

A WRITE is taken for the write-back of the locals that live in registers where it happens.
`process_event` looks them up at the address of the data, less the relocation, and not at
the instruction.
-/
namespace Rtmap.Engine
open Rtmap.Ring

/-- The register is the home of a local of the function that contains `pc`, at `pc`. -/
def DwarfInfo.HomeAt (info : DwarfInfo) (pc : UInt64) (i : RegIdx) : Prop :=
  ∃ func ∈ info.funcContaining pc, ∃ l ∈ func.locals, ShadowRegisterFile.homeRegister pc l = some i

instance (info : DwarfInfo) (pc : UInt64) (i : RegIdx) : Decidable (info.HomeAt pc i) :=
  inferInstanceAs (Decidable (∃ func ∈ info.funcContaining pc, ∃ l ∈ func.locals, _ = _))

/-- The address of the event's instruction in the ELF file: `rip_lo` is its offset from the
module's base. -/
def DwarfInfo.instructionPc (info : DwarfInfo) (ev : Event) : UInt64 :=
  info.elfBaseVaddr + ev.ripLo.toUInt64

namespace ShadowRegisterFile

/-- A register that a value was written back to. -/
def backTo (value pc : UInt64) (seq : ℕ) : ShadowReg :=
  .set value (.writeBack seq pc) .writeBack seq pc

theorem writeHomes_apply (value pc : UInt64) (seq : ℕ) (i : RegIdx) (locals : List LocalVar)
    (regs : Regs) :
    locals.foldl (fun regs l =>
      match homeRegister pc l with
      | some j => Function.update regs j (.set value (.writeBack seq pc) .writeBack seq pc)
      | none => regs) regs i =
    if ∃ l ∈ locals, homeRegister pc l = some i then backTo value pc seq else regs i := by
  induction locals generalizing regs with
  | nil => simp only [List.foldl_nil, List.not_mem_nil, false_and, exists_false, if_false]
  | cons l locals ih =>
      rw [List.foldl_cons, ih]
      simp only [List.exists_mem_cons_iff]
      by_cases hlater : ∃ m ∈ locals, homeRegister pc m = some i
      · rw [if_pos hlater, if_pos (.inr hlater)]
      rw [if_neg hlater]
      cases hl : homeRegister pc l with
      | none => rw [if_neg (not_or.mpr ⟨by simp, hlater⟩)]
      | some j =>
          by_cases hij : j = i
          · subst hij
            rw [if_pos (.inl rfl)]
            exact Function.update_self ..
          · rw [if_neg (not_or.mpr ⟨fun h => hij (Option.some.inj h), hlater⟩)]
            exact Function.update_of_ne (Ne.symm hij) ..

/-- `observe_write` on one register. -/
theorem observeWrite_apply (f : ShadowRegisterFile) (info : DwarfInfo) (value pc : UInt64)
    (seq : ℕ) (i : RegIdx) : (f.observeWrite value pc seq (info.funcContaining pc)).regs i =
      if info.HomeAt pc i then backTo value pc seq else f.regs i := by
  have hhome (func : Option FunctionMeta) : (f.observeWrite value pc seq func).regs i =
      if ∃ g ∈ func, ∃ l ∈ g.locals, homeRegister pc l = some i then backTo value pc seq
      else f.regs i := by
    cases func with
    | none => simp [observeWrite]
    | some g =>
        simp only [Option.mem_some_iff, exists_eq_left']
        exact writeHomes_apply value pc seq i g.locals f.regs
  exact hhome (info.funcContaining pc)

end ShadowRegisterFile

namespace Write
open ShadowRegisterFile
variable (host : Host) (ev : Event) (s : State)

/-- The write is looked up in the DWARF data. -/
def LookedUp (info : DwarfInfo) : Prop :=
  s.dwarfInfo = some info ∧ ev.isContinuation = false ∧ s.addrIndex.inUniverse ev.addr = true

/-- What a WRITE leaves in the registers of its thread. -/
theorem regs_write_self (hkind : kindOf ev = .write) (i : RegIdx) :
    (∀ info, LookedUp ev s info →
      ((processEvent host ev s).regFile ev.threadId).regs i =
        if info.HomeAt (s.elfPc ev.addr) i then backTo (writeValue ev) (s.elfPc ev.addr) (seqOf ev)
        else (s.regFile ev.threadId).regs i) ∧
    ((∀ info, ¬ LookedUp ev s info) →
      ((processEvent host ev s).regFile ev.threadId).regs i =
        (s.regFile ev.threadId).regs i) := by
  have hevent := shadowRegs_processEvent host ev s
  rw [hkind] at hevent
  have hcohere (t : State) (writers : UInt16) :
      (cohere ev writers t).regFile ev.threadId = t.regFile ev.threadId := by
    rw [cohere]
    split
    · exact congrArg (fun f : Option ShadowRegisterFile => f.getD {}) (if_pos rfl)
    · rfl
  have hfile : (processEvent host ev s).regFile ev.threadId =
      (observe ev (recordLine ev (countEvent s)).1).regFile ev.threadId := by
    rw [regFile_of_shadowRegs hevent, registered, hcohere]
  have hpc : (recordLine ev (countEvent s)).1.elfPc ev.addr = s.elfPc ev.addr := rfl
  have hregs : (recordLine ev (countEvent s)).1.regFile = s.regFile := rfl
  rw [hfile, observe, hpc]
  constructor
  · intro info h
    have hdwarf : (recordLine ev (countEvent s)).1.dwarfInfo = some info := h.1
    have htaken : (!ev.isContinuation &&
        (recordLine ev (countEvent s)).1.addrIndex.inUniverse ev.addr) = true := by
      rw [h.2.1]
      exact h.2.2
    rw [hdwarf]
    dsimp only
    rw [if_pos htaken, regFile_withRegs, if_pos rfl, observeWrite_apply, hregs]
  · intro hnot
    cases hdwarf : (recordLine ev (countEvent s)).1.dwarfInfo with
    | none => rfl
    | some info =>
        have hno : ¬ (!ev.isContinuation &&
            (recordLine ev (countEvent s)).1.addrIndex.inUniverse ev.addr) = true := by
          intro htaken
          rw [Bool.and_eq_true, Bool.not_eq_true'] at htaken
          exact hnot info ⟨hdwarf, htaken.1, htaken.2⟩
        dsimp only
        rw [if_neg hno]
        rfl

/-- A WRITE changes a register of its thread only where the instruction's function keeps a
local in it, and of the other threads' registers at most lowers the confidence. -/
structure BackAtInstruction : Prop where
  own : ∀ i, ((processEvent host ev s).regFile ev.threadId).regs i ≠
      (s.regFile ev.threadId).regs i →
    ∃ info, s.dwarfInfo = some info ∧ info.HomeAt (info.instructionPc ev) i
  others : ∀ tid, tid ≠ ev.threadId → ∀ i,
    ((processEvent host ev s).regFile tid).regs i = (s.regFile tid).regs i ∨
      ((processEvent host ev s).regFile tid).regs i =
        { (s.regFile tid).regs i with confidence := .stale }

/-- The registers that the data's address stands for are homes at the instruction, too, or
hold just what is written back to them. -/
def SameHomes : Prop :=
  ∀ info, LookedUp ev s info → ∀ i, info.HomeAt (s.elfPc ev.addr) i →
    info.HomeAt (info.instructionPc ev) i ∨
      (s.regFile ev.threadId).regs i = backTo (writeValue ev) (s.elfPc ev.addr) (seqOf ev)

theorem regs_write_other (hkind : kindOf ev = .write) (tid : UInt16) (htid : tid ≠ ev.threadId)
    (i : RegIdx) : ((processEvent host ev s).regFile tid).regs i = (s.regFile tid).regs i ∨
      ((processEvent host ev s).regFile tid).regs i =
        { (s.regFile tid).regs i with confidence := .stale } := by
  have hevent := shadowRegs_processEvent host ev s
  rw [hkind] at hevent
  have hregs : (countEvent s).regFile = s.regFile := rfl
  rw [regFile_of_shadowRegs hevent, regFile_registered htid, hregs]
  split
  · show coherent .. = _ ∨ coherent .. = _
    unfold coherent
    split
    · exact .inr rfl
    · exact .inl rfl
  · exact .inl rfl

end Write

section Patching

/-- A program that keeps a local of `main` in rbx, and a function behind it that does not. -/
def patcher : DwarfInfo where
  globals := [⟨"first", 0x800, 8, { name := "long", byteSize := 8 }⟩,
    ⟨"last", 0x2000, 8, { name := "long", byteSize := 8 }⟩]
  functions := (FunctionMap.empty.add {
      name := "main"
      lowPc := 0x1000
      highPc := 0x1100
      locals := [{
        frameOffset := 0
        name := "i"
        size := 8
        typeInfo := { name := "long", byteSize := 8 }
        location := ⟨[⟨0x1000, 0x1100, .register 3⟩]⟩ }] }).add
    { name := "patch", lowPc := 0x1100, highPc := 0x1200 }

def patched : State := (Replay.start .plain (some patcher)).engine

/-- `patch` stores 5 into the code of `main`. -/
def storeIntoMain : Event := { plainEvent EVENT_WRITE 0x1050 5 with ripLo := 0x1110 }

/-- A store into a variable. -/
def storeIntoLast : Event := { plainEvent EVENT_WRITE 0x2000 5 with ripLo := 0x1110 }

end Patching

end Rtmap.Engine
