import Rtmap.Tracer.WritePath

/-!
# The code inserted into a basic block

`eventBbInsert` lists, in order, what is inserted before each instruction of a
block, with the instructions themselves. `Follows` says that the halves of a
store enclose nothing but reads of the same instruction: the only code between
them that can push is `flush_read_buf_if_needed`.
-/
namespace Rtmap.Tracer
open Rtmap.Ring

/-- A destination operand: a memory reference with its size and run-time address,
and whether registers for its address were found; or a register, with its index
when it is one that reloads are tracked for. -/
inductive Dst where
  | mem (size : UInt32) (ea : UInt64) (ok : Bool)
  | reg (reload : Option UInt8)

/-- A source operand. `captures` says that the scan for the stored value stops at
the register: a general-purpose one, not part of the address and not reserved. -/
inductive Src where
  | mem (size : UInt32) (ea : UInt64) (ok : Bool)
  | reg (captures : Bool)
  | imm (value : UInt64)
  | other

def Src.isMem : Src → Bool
  | .mem .. => true
  | _ => false

/-- One application instruction of a block, as the instrumentation sees it, and
what it does to memory. -/
structure Instr where
  pc : UInt64
  rip : UInt32
  inMain : Bool
  entryOk : Bool
  callTo : Option (UInt64 × UInt64)
  isReturn : Bool
  tailCallTo : Option (UInt64 × UInt64)
  forceClean : Bool
  dsts : List Dst
  srcs : List Src
  effect : Memory → Memory

namespace Instr

/-- The first memory destination, when its address registers were found. -/
def store (i : Instr) : Option (UInt32 × UInt64) :=
  if i.inMain then
    i.dsts.findSome? (fun
      | .mem size ea ok => some (size, ea, ok)
      | .reg _ => none) |>.bind fun (size, ea, ok) => if ok then some (size, ea) else none
  else none

/-- The scan over the sources for an immediate. -/
def captureImm : List Src → Option UInt64
  | [] => none
  | .reg true :: _ => none
  | .imm v :: _ => some v
  | _ :: rest => captureImm rest

def imm (i : Instr) : Option UInt64 :=
  if i.forceClean || i.srcs.any Src.isMem then none else captureImm i.srcs

def preWrite (i : Instr) : Option PreWrite :=
  i.store.map fun (size, ea) => ⟨ea, size, i.rip, i.imm, 8 < size && !i.forceClean⟩

/-- A load into one of the tracked registers. -/
def reload (i : Instr) : Option (UInt64 × UInt32 × UInt8) :=
  match i.dsts with
  | [.reg (some reg)] =>
      i.srcs.findSome? (fun
        | .mem size ea ok => some (size, ea, ok)
        | _ => none) |>.bind fun (size, ea, ok) => if ok then some (ea, size, reg) else none
  | _ => none

end Instr

/-- Inserted code and application instructions. `effect` is that of the
instruction a first half belongs to; the code does not see it. -/
inductive Action where
  | emitBbEntry (pc : UInt64) (rip : UInt32)
  | emitPreWrite (w : PreWrite) (effect : Memory → Memory)
  | emitPostWrite (p : PostWrite)
  | atCall (callee frameBase : UInt64)
  | atReturn (retaddr : UInt64)
  | atTailCall (target frameBase : UInt64)
  | flushHeadCache
  | atReload (src : UInt64) (size : UInt32) (reg : UInt8)
  | flushReadBufIfNeeded (needed : ℕ)
  | atMemReadBuf (addr : UInt64) (size : UInt32)
  | flushReadBuf
  | app (effect : Memory → Memory)

/-- The reads of an instruction: a reload, or the read buffer. -/
def Instr.readCode (i : Instr) : List Action :=
  if !i.srcs.any Src.isMem then []
  else match i.reload with
    | some (ea, size, reg) => [.atReload ea size reg]
    | none =>
        .flushReadBufIfNeeded (i.srcs.countP Src.isMem) :: i.srcs.filterMap fun
          | .mem size ea true => some (.atMemReadBuf ea size)
          | _ => none

def Instr.controlCode (i : Instr) (last : Bool) : List Action :=
  i.callTo.toList.map (fun (callee, frameBase) => .atCall callee frameBase) ++
  (if i.isReturn then [.atReturn i.pc] else []) ++
  (if last then i.tailCallTo.toList.map fun (target, frameBase) => .atTailCall target frameBase
   else [])

/-- The code of the rest of a block, with the second half still owed to the
store before it. -/
def insertFrom (hasReads : Bool) : Bool → Option PostWrite → List Instr → List Action
  | _, _, [] => []
  | first, pending, i :: rest =>
      let last := rest.isEmpty
      (if first && i.inMain && i.entryOk then [.emitBbEntry i.pc i.rip] else []) ++
      (pending.toList.map .emitPostWrite ++
      (i.controlCode last ++
      (i.preWrite.toList.map (.emitPreWrite · i.effect) ++
      ((if last then i.preWrite.toList.map (.emitPostWrite ·.post) ++ [.flushHeadCache] else []) ++
      (i.readCode ++
      ((if last && hasReads then [.flushReadBuf] else []) ++
      (.app i.effect ::
        insertFrom hasReads false (if last then none else i.preWrite.map PreWrite.post) rest)))))))

def eventBbInsert (block : List Instr) : List Action :=
  insertFrom (block.any fun i => i.srcs.any Src.isMem) true none block

def exec (env : Env) (t : Thread) : Action → Thread
  | .emitBbEntry pc rip => t.emitBbEntry pc rip env
  | .emitPreWrite w _ => t.emitPreWrite w env
  | .emitPostWrite p => t.emitPostWrite p
  | .atCall callee frameBase => t.atCall callee frameBase env
  | .atReturn retaddr => t.atReturn retaddr env
  | .atTailCall target frameBase => t.atTailCall target frameBase env
  | .flushHeadCache => t.flushHeadCache env
  | .atReload src size reg => t.atReload src size reg env
  | .flushReadBufIfNeeded needed => t.flushReadBufIfNeeded needed env
  | .atMemReadBuf addr size => t.atMemReadBuf addr size env
  | .flushReadBuf => t.flushReadBuf env
  | .app effect => { t with mem := effect t.mem }

/-- The value of the instruction's store is read where the store leaves it: an
immediate of one word is what the instruction stores; any other value is re-read
after the instruction, and inline or in chunks when it is wider than a word. -/
def Instr.Captured (i : Instr) (last : Bool) : Prop :=
  ∀ w, i.preWrite = some w →
    match w.imm with
    | some v => w.size ≤ 8 ∧
        ∀ m, v &&& sizeMask w.size = wordAt (i.effect m) w.ea 8 &&& sizeMask w.size
    | none => last = false ∧ (w.size ≤ 8 ∨ w.wide = true)

def Captured : List Instr → Prop
  | [] => True
  | i :: rest => i.Captured rest.isEmpty ∧ Captured rest

/-- Where a block stands with its store: nothing in flight, first half done, or
stored to memory and not yet completed. -/
inductive Mode where
  | clear
  | armed (w : PreWrite) (effect : Memory → Memory)
  | stored (w : PreWrite)

/-- The value the second half finds, or that the first half wrote, is right. -/
def PreWrite.Captured (w : PreWrite) (effect : Memory → Memory) : Prop :=
  match w.imm with
  | some v => w.size ≤ 8 ∧
      ∀ m, v &&& sizeMask w.size = wordAt (effect m) w.ea 8 &&& sizeMask w.size
  | none => w.size ≤ 8 ∨ w.wide = true

def Mode.next : Mode → Action → Mode
  | _, .emitPreWrite w effect => .armed w effect
  | _, .emitPostWrite _ => .clear
  | .armed w _, .app _ => .stored w
  | m, _ => m

/-- The actions that the inserted code performs in each mode. -/
inductive Allowed : Mode → Action → Prop
  | entry {pc rip} : Allowed .clear (.emitBbEntry pc rip)
  | pre {w effect} (h : w.Captured effect) (hw : w.wide = true → 8 < w.size) :
      Allowed .clear (.emitPreWrite w effect)
  | postImm {w effect} (h : w.imm.isSome = true) :
      Allowed (.armed w effect) (.emitPostWrite w.post)
  | post {w} : Allowed (.stored w) (.emitPostWrite w.post)
  | call {callee frameBase} : Allowed .clear (.atCall callee frameBase)
  | ret {retaddr} : Allowed .clear (.atReturn retaddr)
  | tailCall {target frameBase} : Allowed .clear (.atTailCall target frameBase)
  | flushHead : Allowed .clear .flushHeadCache
  | reload {src size reg} : Allowed .clear (.atReload src size reg)
  | flushIfNeeded {m needed} : Allowed m (.flushReadBufIfNeeded needed)
  | read {m addr size} : Allowed m (.atMemReadBuf addr size)
  | flushReads : Allowed .clear .flushReadBuf
  | app {effect} : Allowed .clear (.app effect)
  | store {w effect} : Allowed (.armed w effect) (.app effect)

/-- The code goes from one mode to another by allowed actions. -/
def Follows : Mode → List Action → Mode → Prop
  | m, [], m' => m = m'
  | m, a :: as, m' => Allowed m a ∧ Follows (m.next a) as m'

theorem Follows.append {m m' m'' : Mode} {as bs : List Action} (h : Follows m as m')
    (k : Follows m' bs m'') : Follows m (as ++ bs) m'' := by
  induction as generalizing m with
  | nil =>
      obtain rfl : m = m' := h
      exact k
  | cons a as ih => exact ⟨h.1, ih h.2⟩

/-- Actions that keep the mode. -/
theorem Follows.of_all {m : Mode} {as : List Action} (h : ∀ a ∈ as, Allowed m a ∧ m.next a = m) :
    Follows m as m := by
  induction as with
  | nil => rfl
  | cons a as ih =>
      obtain ⟨ha, hm⟩ := h a (by simp)
      refine ⟨ha, ?_⟩
      rw [hm]
      exact ih fun b hb => h b (by simp [hb])

section Code
variable {i : Instr}

theorem controlCode_follows (last : Bool) : Follows .clear (i.controlCode last) .clear := by
  apply Follows.of_all
  intro a ha
  simp only [Instr.controlCode, List.mem_append, List.mem_map] at ha
  rcases ha with (⟨_, -, rfl⟩ | ha) | ha
  · exact ⟨.call, rfl⟩
  · split at ha
    · obtain rfl := List.mem_singleton.mp ha
      exact ⟨.ret, rfl⟩
    · simp at ha
  · split at ha
    · obtain ⟨_, -, rfl⟩ := List.mem_map.mp ha
      exact ⟨.tailCall, rfl⟩
    · simp at ha

/-- A tracked load has a single register destination, so no store. -/
theorem Instr.store_of_reload (h : i.reload ≠ none) : i.preWrite = none := by
  unfold Instr.reload at h
  split at h
  · rename_i reg hdsts
    simp [Instr.preWrite, Instr.store, hdsts]
  · exact absurd rfl h

theorem readCode_follows {m : Mode} (hm : i.preWrite ≠ none ∨ m = .clear) :
    Follows m i.readCode m := by
  apply Follows.of_all
  intro a ha
  unfold Instr.readCode at ha
  split at ha
  · simp at ha
  · split at ha
    · rename_i heq
      obtain rfl := List.mem_singleton.mp ha
      obtain hstore | rfl := hm
      · exact absurd (Instr.store_of_reload (by rw [heq]; simp)) hstore
      · exact ⟨.reload, rfl⟩
    · rcases List.mem_cons.mp ha with rfl | ha
      · cases m <;> exact ⟨.flushIfNeeded, rfl⟩
      · obtain ⟨src, -, hsrc⟩ := List.mem_filterMap.mp ha
        split at hsrc
        · obtain rfl := Option.some.inj hsrc
          cases m <;> exact ⟨.read, rfl⟩
        · cases hsrc

/-- The second half that is owed in a mode. -/
inductive Owes : Option PostWrite → Mode → Prop
  | none : Owes none .clear
  | some {w : PreWrite} : Owes (some w.post) (.stored w)

theorem Instr.Captured.pre {last : Bool} (h : i.Captured last) {w : PreWrite}
    (hw : i.preWrite = some w) : w.Captured i.effect := by
  have hcap := h w hw
  unfold PreWrite.Captured
  cases himm : w.imm with
  | some v => simpa [himm] using hcap
  | none =>
      simp only [himm] at hcap
      exact hcap.2

theorem Instr.wide_lt {w : PreWrite} (hw : i.preWrite = some w) (hwide : w.wide = true) :
    8 < w.size := by
  obtain ⟨⟨size, ea⟩, -, rfl⟩ := Option.map_eq_some_iff.mp hw
  simp only [Bool.and_eq_true, decide_eq_true_eq] at hwide
  exact hwide.1

/-- One instruction that is not the last of its block. -/
theorem follows_more {m m' : Mode} {pending : List Action} {rest : List Action}
    (hpending : Follows m pending .clear) (hcap : i.Captured false)
    (hrest : ∀ m, Owes (i.preWrite.map PreWrite.post) m → Follows m rest m') :
    Follows m (pending ++ (i.controlCode false ++ (i.preWrite.toList.map (.emitPreWrite · i.effect) ++
      (i.readCode ++ (.app i.effect :: rest))))) m' := by
  apply hpending.append
  apply (controlCode_follows false).append
  cases hw : i.preWrite with
  | none =>
      simp only [Option.toList_none, List.map_nil, List.nil_append]
      apply (readCode_follows (.inr rfl)).append
      refine ⟨.app, hrest .clear ?_⟩
      rw [hw]
      exact .none
  | some w =>
      refine ⟨.pre (hcap.pre hw) (Instr.wide_lt hw), ?_⟩
      have hread : Follows (.armed w i.effect) i.readCode (.armed w i.effect) :=
        readCode_follows (.inl (by simp [hw]))
      apply hread.append
      refine ⟨.store, hrest (.stored w) ?_⟩
      rw [hw]
      exact .some

/-- The last instruction of a block. -/
theorem follows_last {m : Mode} {pending : List Action} (hasReads : Bool)
    (hpending : Follows m pending .clear) (hcap : i.Captured true) :
    Follows m (pending ++ (i.controlCode true ++ (i.preWrite.toList.map (.emitPreWrite · i.effect) ++
      ((i.preWrite.toList.map (.emitPostWrite ·.post) ++ [.flushHeadCache]) ++
        (i.readCode ++ ((if hasReads then [.flushReadBuf] else []) ++ [.app i.effect])))))) .clear := by
  have hend : Follows .clear
      (i.readCode ++ ((if hasReads then [.flushReadBuf] else []) ++ [.app i.effect])) .clear := by
    apply (readCode_follows (.inr rfl)).append
    cases hasReads with
    | true => exact ⟨.flushReads, .app, rfl⟩
    | false => exact ⟨.app, rfl⟩
  apply hpending.append
  apply (controlCode_follows true).append
  cases hw : i.preWrite with
  | none => exact ⟨.flushHead, hend⟩
  | some w =>
      have himm : w.imm.isSome = true := by
        have hlast := hcap w hw
        cases himm : w.imm with
        | some v => rfl
        | none => simp [himm] at hlast
      exact ⟨.pre (hcap.pre hw) (Instr.wide_lt hw), .postImm himm, .flushHead, hend⟩

theorem insertFrom_follows (hasReads : Bool) {block : List Instr} (hcap : Captured block)
    {first : Bool} {pending : Option PostWrite} {m : Mode} (howes : Owes pending m)
    (hfirst : first = true → pending = none) (hne : block ≠ [] ∨ pending = none) :
    Follows m (insertFrom hasReads first pending block) .clear := by
  induction block generalizing first pending m with
  | nil =>
      obtain h | rfl := hne
      · exact absurd rfl h
      · cases howes
        rfl
  | cons i rest ih =>
      have hpending : Follows m
          ((if first && i.inMain && i.entryOk then [.emitBbEntry i.pc i.rip] else []) ++
            pending.toList.map .emitPostWrite) .clear := by
        cases howes with
        | none =>
            split
            · exact ⟨.entry, rfl⟩
            · exact rfl
        | some =>
            have hnot : first = false := by
              cases first with
              | false => rfl
              | true => cases hfirst rfl
            simp only [hnot, Bool.false_and, Bool.false_eq_true, if_false, List.nil_append]
            exact ⟨.post, rfl⟩
      simp only [insertFrom]
      rw [← List.append_assoc]
      cases rest with
      | nil => simpa [insertFrom] using follows_last hasReads hpending hcap.1
      | cons j rest =>
          have hrest (m' : Mode) (howes' : Owes (i.preWrite.map PreWrite.post) m') :
              Follows m' (insertFrom hasReads false (i.preWrite.map PreWrite.post) (j :: rest))
                .clear :=
            ih hcap.2 howes' (by simp) (.inl (by simp))
          simpa using follows_more hpending hcap.1 hrest

theorem eventBbInsert_follows {block : List Instr} (hcap : Captured block) :
    Follows .clear (eventBbInsert block) .clear :=
  insertFrom_follows _ hcap .none (fun _ => rfl) (.inr rfl)

end Code

end Rtmap.Tracer
