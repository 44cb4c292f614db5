import Rtmap.Engine.BlockEpochs
import Rtmap.Engine.CallFrames
import Rtmap.Tracer.Slots

/-!
# Calls of the program and frames of the engine

A properly nested execution of one thread, the events its clean calls push, and what
the engine makes of them. Only a direct call pushes a CALL, every return pushes a
RETURN, and the engine has frames for known functions only.
-/
namespace Rtmap.Engine
open Rtmap.Ring Rtmap.Tracer Transition

/-- The control transfers that `event_bb_insert` tells apart. -/
inductive Transfer where
  | call (callee frameBase : UInt64)
  | callIndirect (callee frameBase : UInt64)
  | ret (pc : UInt64)
  | jump (moduleBase here target frameBase : UInt64)
  | jumpIndirect (target : UInt64)

/-- The tail-call heuristic: a jump farther than 4 KiB. -/
def tailCallTo (moduleBase here target frameBase : UInt64) : Option (UInt64 × UInt64) :=
  if moduleBase ≠ 0 ∧ moduleBase ≤ target ∧
      4096 < (if here < target then target - here else here - target) then
    some (target, frameBase)
  else none

/-- The transfer as the last instruction of its block. -/
def Transfer.instr : Transfer → Instr
  | .call callee frameBase => { Instr.plain with callTo := some (callee, frameBase) }
  | .ret pc => { Instr.plain with pc := pc, isReturn := true }
  | .jump moduleBase here target frameBase =>
      { Instr.plain with tailCallTo := tailCallTo moduleBase here target frameBase }
  | .callIndirect .. | .jumpIndirect _ => Instr.plain

def Transfer.code (x : Transfer) : List Action := x.instr.controlCode true

/-- The pushes of a clean call. -/
def pushesOf (env : Env) (t : Thread) : Action → List Thread.Push
  | .atCall callee frameBase => Thread.callPushes callee frameBase env t
  | .atReturn retaddr => Thread.returnPushes retaddr t
  | .atTailCall target frameBase => Thread.tailCallPushes target frameBase t
  | _ => []

/-- The events that the code of a transfer pushes. -/
def Transfer.events (x : Transfer) (env : Env) (t : Thread) : List Event :=
  x.code.flatMap fun a => pushed (fun t => pushesOf env t a) env t

/-- The tracing phase, with room in the ring for every push. -/
structure Roomy (x : Transfer) (env : Env) (t : Thread) : Prop where
  phase : env.phase = .trace
  guard : t.guard = false
  mapped : t.mapped = true
  room : ∀ a ∈ x.code, (Thread.admitted env t.capacity.size t.cached t.tlsSeq 0
    (pushesOf env t a)).length = (pushesOf env t a).length

instance (x : Transfer) (env : Env) (t : Thread) : Decidable (Roomy x env t) :=
  decidable_of_iff (env.phase = .trace ∧ t.guard = false ∧ t.mapped = true ∧
      ∀ a ∈ x.code, (Thread.admitted env t.capacity.size t.cached t.tlsSeq 0
        (pushesOf env t a)).length = (pushesOf env t a).length)
    ⟨fun h => ⟨h.1, h.2.1, h.2.2.1, h.2.2.2⟩, fun h => ⟨h.phase, h.guard, h.mapped, h.room⟩⟩

/-- The engine over a batch. -/
def feed (host : Host) (events : List Event) (s : State) : State :=
  events.foldl (fun s ev => processEvent host ev s) s

/-- The number of each CALL without its RETURN, where events of call `n` come in. -/
def unreturned (n : ℕ) (events : List Event) (opens : List ℕ) : List ℕ :=
  events.foldl (fun opens ev =>
    match kindOf ev with
    | .call => n :: opens
    | .ret => opens.tail
    | _ => opens) opens

/-- A call that the program has not returned from: whether it was direct, and whether
the engine knew the function when its CALL came. -/
structure Activation where
  number : ℕ
  direct : Bool
  known : Bool

/-- The program's call stack, the engine, and the CALLs without a RETURN. `balanced` says
of every return so far that its RETURN closed the CALL of the call it ended and left the
engine's stack as deep as the program's. -/
structure Execution where
  thread : Thread
  engine : State
  acts : List Activation := []
  calls : ℕ := 0
  opens : List ℕ := []
  balanced : Bool := true

/-- The engine knows the function when it comes to the CALL. -/
def knownAt (host : Host) (callee : UInt64) (events : List Event) (s : State) : Bool :=
  ((feed host (events.takeWhile fun ev => kindOf ev ≠ .call) s).callee callee).isSome

/-- An input that is neither CALL nor RETURN. -/
def Input.isQuiet : Input → Bool
  | .event _ ev => kindOf ev != .call && kindOf ev != .ret
  | _ => true

/-- Between its transfers the thread runs other code and the engine gets other inputs. -/
inductive ExecLabel where
  | transfer (x : Transfer) (host : Host) (env : Env)
  | between (t : Thread) (inputs : List Input)

namespace Execution

/-- The thread and the engine behind a transfer. -/
def pass (x : Transfer) (host : Host) (env : Env) (s : Execution) : Execution :=
  { s with
    thread := x.code.foldl (Tracer.exec env) s.thread
    engine := feed host (x.events env s.thread) s.engine
    opens := unreturned s.calls (x.events env s.thread) s.opens }

/-- A new call on the program's stack. -/
def enter (a : Activation) (s : Execution) : Execution :=
  { s with acts := a :: s.acts, calls := s.calls + 1 }

/-- The return from the last call, if the RETURN is its own. -/
def leave (rest : List Activation) (paired : Bool) (s : Execution) : Execution :=
  { s with
    acts := rest
    balanced := s.balanced && paired &&
      (s.engine.framesOf s.thread.tid).length == rest.length }

def step : ExecLabel → Execution → Option Execution
  | .transfer x host env, s =>
      if Roomy x env s.thread then
        match x with
        | .call callee _ =>
            let known := knownAt host callee (x.events env s.thread) s.engine
            some ((s.pass x host env).enter ⟨s.calls, true, known⟩)
        | .callIndirect .. => some ((s.pass x host env).enter ⟨s.calls, false, false⟩)
        | .ret _ =>
            match s.acts with
            | [] => none
            | top :: rest =>
                some ((s.pass x host env).leave rest (s.opens.head? == some top.number))
        | .jump .. | .jumpIndirect _ => some (s.pass x host env)
      else none
  | .between t inputs, s =>
      if t.tid = s.thread.tid ∧ inputs.all Input.isQuiet then
        some { s with thread := t, engine := Input.run inputs s.engine }
      else none

end Execution

/-- An execution of one thread under a fresh engine with its DWARF data. -/
def Execution.start (tid : UInt16) (mem : Memory) (info : Option DwarfInfo) : Execution where
  thread := .start THREAD_RING_CAPACITY true tid mem
  engine := { dwarfInfo := info }

/-- A return from a direct call which is the outermost one, or all the calls around
which are direct calls of functions known to the engine. -/
def Returns : ExecLabel → Execution → Prop
  | .transfer (.ret _) _ _, s => ∀ top rest, s.acts = top :: rest →
      top.direct = true ∧ (rest = [] ∨ ∀ a ∈ s.acts, a.direct = true ∧ a.known = true)
  | _, _ => True

section Feed
variable {host : Host} {s : State} {tid : UInt16}

theorem framesOf_quiet {ev : Event} (hcall : kindOf ev ≠ .call) (hret : kindOf ev ≠ .ret) :
    (processEvent host ev s).framesOf tid = s.framesOf tid := by
  by_cases hload : kindOf ev = .moduleLoad ∧ s.unrelocated
  · have hstate : processEvent host ev s = processModuleLoad host ev (countEvent s) := by
      simp only [processEvent, processKind, hload.1]
    rw [hstate]
    exact (load_spec (s := countEvent s) host ev hload.2).1 tid
  · exact framesOf_of_frameView (frameView_other (s := countEvent s) hcall hret
      fun hkind hun => hload ⟨hkind, hun⟩) tid

theorem framesOf_quietInput {i : Input} (h : i.isQuiet = true) :
    (i.apply s).framesOf tid = s.framesOf tid := by
  cases i with
  | event host ev =>
      simp only [Input.isQuiet, Bool.and_eq_true, bne_iff_ne] at h
      exact framesOf_quiet h.1 h.2
  | snapshot u => rfl
  | libraries host modtab =>
      exact framesOf_of_frameView (FramesInv.frameView_libraries host modtab s) tid

theorem framesOf_quietRun {inputs : List Input} (h : inputs.all Input.isQuiet = true) :
    (Input.run inputs s).framesOf tid = s.framesOf tid := by
  induction inputs generalizing s with
  | nil => rfl
  | cons i inputs ih =>
      rw [List.all_cons, Bool.and_eq_true] at h
      exact (ih h.2 (s := i.apply s)).trans (framesOf_quietInput h.1)

/-- Events that are neither CALL nor RETURN. -/
def Quiet (events : List Event) : Prop := ∀ ev ∈ events, kindOf ev ≠ .call ∧ kindOf ev ≠ .ret

theorem framesOf_feed {events : List Event} (h : Quiet events) :
    (feed host events s).framesOf tid = s.framesOf tid := by
  induction events generalizing s with
  | nil => rfl
  | cons ev events ih =>
      have hfirst := h ev List.mem_cons_self
      exact (ih (fun x hx => h x (List.mem_cons_of_mem _ hx))).trans
        (framesOf_quiet hfirst.1 hfirst.2)

theorem unreturned_quiet {events : List Event} (h : Quiet events) (n : ℕ) (opens : List ℕ) :
    unreturned n events opens = opens := by
  induction events generalizing opens with
  | nil => rfl
  | cons ev events ih =>
      have hfirst := h ev List.mem_cons_self
      rw [unreturned, List.foldl_cons]
      have hkeep : (match kindOf ev with
          | .call => n :: opens
          | .ret => opens.tail
          | _ => opens) = opens := by
        cases hk : kindOf ev <;> first | exact absurd hk hfirst.1 | exact absurd hk hfirst.2 | rfl
      rw [hkeep]
      exact ih (fun x hx => h x (List.mem_cons_of_mem _ hx)) opens

theorem framesOf_call {ev : Event} (hkind : kindOf ev = .call) (htid : ev.threadId = tid) :
    ((processEvent host ev s).framesOf tid).length =
      (s.framesOf tid).length + (s.callee ev.addr).isSome.toNat := by
  have hstate : processEvent host ev s = processCall host ev (countEvent s) := by
    simp only [processEvent, processKind, hkind]
  rw [hstate]
  cases hf : s.callee ev.addr with
  | none =>
      rw [framesOf_of_frameView (frameView_call_unknown (s := countEvent s) hf)]
      rfl
  | some f =>
      rw [(call_spec (s := countEvent s) host hf).1 tid, if_pos htid.symm]
      rfl

theorem framesOf_ret {ev : Event} (hkind : kindOf ev = .ret) (htid : ev.threadId = tid) :
    (processEvent host ev s).framesOf tid = (s.framesOf tid).tail := by
  have hstate : processEvent host ev s = processReturn ev (countEvent s) := by
    simp only [processEvent, processKind, hkind]
  rw [hstate, (return_spec ev (countEvent s)).1 tid, if_pos htid.symm]
  rfl

theorem feed_append (xs ys : List Event) : feed host (xs ++ ys) s = feed host ys (feed host xs s) :=
  List.foldl_append

theorem unreturned_append (n : ℕ) (xs ys : List Event) (opens : List ℕ) :
    unreturned n (xs ++ ys) opens = unreturned n ys (unreturned n xs opens) :=
  List.foldl_append

end Feed

section Events
variable {x : Transfer} {env : Env} {t : Thread}

theorem kindOf_of_kind {ev : Event} (kind : UInt8) (h : ev.kind = kind) :
    kindOf ev = kindOf (plainEvent kind 0 0) := by
  have hkind : (plainEvent kind 0 0).kind = kind := kind_makeKf ..
  rw [kindOf, kindOf, h, hkind]

theorem quiet_of_kind {events : List Event} (kind : UInt8) (h : ∀ ev ∈ events, ev.kind = kind)
    (hcall : kindOf (plainEvent kind 0 0) ≠ .call) (hret : kindOf (plainEvent kind 0 0) ≠ .ret) :
    Quiet events := by
  intro ev hev
  rw [kindOf_of_kind kind (h ev hev)]
  exact ⟨hcall, hret⟩

theorem Roomy.pushed (h : Roomy x env t) {a : Action} (ha : a ∈ x.code) :
    pushed (fun t => pushesOf env t a) env t =
      (operations t.tlsSeq (pushesOf env t a)).flatMap Op.slots := by
  rw [Tracer.pushed, if_neg (by simp [h.phase, h.guard, h.mapped]),
    admitted_eq_operations (h.room a ha)]

/-- A direct call pushes one CALL, with quiet events before and behind it. -/
theorem events_call {callee frameBase : UInt64} (h : Roomy (.call callee frameBase) env t) :
    ∃ before ev after, (Transfer.call callee frameBase).events env t = before ++ ev :: after ∧
      Quiet before ∧ Quiet after ∧ kindOf ev = .call ∧ ev.addr = callee ∧ ev.threadId = t.tid := by
  have hcode : (Transfer.call callee frameBase).code = [.atCall callee frameBase] := rfl
  have hevents : (Transfer.call callee frameBase).events env t =
      (operations t.tlsSeq (Thread.callPushes callee frameBase env t)).flatMap Op.slots := by
    rw [Transfer.events, hcode, List.flatMap_singleton, h.pushed (by rw [hcode]; simp)]
    rfl
  rw [hevents, Thread.callPushes]
  obtain ⟨seq, hlast⟩ := operations_append t.tlsSeq
    (env.moduleLoad.toList.map (fun base => Thread.pushEx base 0 0 EVENT_MODULE_LOAD t.tid) ++
      [Thread.pushEx callee 0 frameBase EVENT_CALL t.tid])
    (env.regs.toList.map fun regs =>
      ⟨fun seq => .pushRegSnapshot (env.insnCounter + 8) regs t.tid seq, false⟩)
  obtain ⟨seq', hfirst⟩ := operations_append t.tlsSeq
    (env.moduleLoad.toList.map fun base => Thread.pushEx base 0 0 EVENT_MODULE_LOAD t.tid)
    [Thread.pushEx callee 0 frameBase EVENT_CALL t.tid]
  rw [hlast, hfirst, List.flatMap_append, List.flatMap_append, List.append_assoc]
  refine ⟨_, ⟨callee, 0, t.tid, seqLo seq', frameBase, makeKf EVENT_CALL 0 (seqHi seq'), 0⟩, _, rfl,
    quiet_of_kind EVENT_MODULE_LOAD ?_ (by decide) (by decide),
    quiet_of_kind EVENT_REG_SNAPSHOT ?_ (by decide) (by decide),
    kindOf_of_kind EVENT_CALL (kind_makeKf ..), rfl, rfl⟩
  · intro ev hev
    obtain ⟨op, hop, hmem⟩ := List.mem_flatMap.mp hev
    obtain ⟨p, hp, q, rfl⟩ := mem_operations hop
    obtain ⟨base, -, rfl⟩ := List.mem_map.mp hp
    exact kind_pushExFlags hmem
  · intro ev hev
    obtain ⟨op, hop, hmem⟩ := List.mem_flatMap.mp hev
    obtain ⟨p, hp, q, rfl⟩ := mem_operations hop
    obtain ⟨regs, -, rfl⟩ := List.mem_map.mp hp
    exact Op.kind_of_snapshot rfl hmem

theorem events_ret {pc : UInt64} (h : Roomy (.ret pc) env t) :
    ∃ ev, (Transfer.ret pc).events env t = [ev] ∧ kindOf ev = .ret ∧ ev.threadId = t.tid := by
  have hcode : (Transfer.ret pc).code = [.atReturn pc] := rfl
  refine ⟨⟨pc, 0, t.tid, seqLo t.tlsSeq, 0, makeKf EVENT_RETURN 0 (seqHi t.tlsSeq), 0⟩, ?_,
    kindOf_of_kind EVENT_RETURN (kind_makeKf ..), rfl⟩
  rw [Transfer.events, hcode, List.flatMap_singleton, h.pushed (by rw [hcode]; simp)]
  rfl

/-- A jump within a function pushes nothing. -/
theorem code_jump (moduleBase here target frameBase : UInt64) :
    (Transfer.jump moduleBase here target frameBase).code =
      (tailCallTo moduleBase here target frameBase).toList.map
        fun (target, frameBase) => .atTailCall target frameBase := rfl

theorem events_jump (moduleBase here target frameBase : UInt64) :
    Quiet ((Transfer.jump moduleBase here target frameBase).events env t) := by
  refine quiet_of_kind EVENT_TAIL_CALL (fun ev hev => ?_) (by decide) (by decide)
  obtain ⟨a, ha, hev⟩ := List.mem_flatMap.mp hev
  rw [code_jump] at ha
  obtain ⟨⟨target', frameBase'⟩, -, rfl⟩ := List.mem_map.mp ha
  obtain ⟨p, hp, q, hslot⟩ := mem_pushed hev
  obtain rfl := List.mem_singleton.mp hp
  exact kind_pushExFlags hslot

end Events

namespace Execution

/-- The open CALLs are those of the direct calls on the program's stack, and the engine
has a frame for each of them that it knew. -/
structure Tracked (s : Execution) : Prop where
  opens : s.opens = (s.acts.filter Activation.direct).map Activation.number
  depth : (s.engine.framesOf s.thread.tid).length =
    (s.acts.filter fun a => a.direct && a.known).length
  below : ∀ a ∈ s.acts, a.number < s.calls
  distinct : (s.acts.map Activation.number).Nodup

section Pass
variable {s t : Execution} {x : Transfer} {host : Host} {env : Env}

theorem tid_code (x : Transfer) (env : Env) (t : Thread) :
    (x.code.foldl (Tracer.exec env) t).tid = t.tid := by
  have hclean (pushes : Thread → List Thread.Push) : (t.cleanCall pushes env).tid = t.tid := by
    rcases cleanCall_cases pushes env t with ⟨-, h⟩ | ⟨seq, h⟩ <;> rw [h]
  cases x with
  | call callee frameBase => exact hclean _
  | ret pc => exact hclean _
  | jump moduleBase here target frameBase =>
      rw [code_jump]
      cases tailCallTo moduleBase here target frameBase with
      | none => rfl
      | some p => exact hclean _
  | callIndirect | jumpIndirect => rfl

/-- An activation that is entered gets a number of its own. -/
theorem Tracked.fresh (h : Tracked s) {a : Activation} (ha : a.number = s.calls) :
    (∀ b ∈ a :: s.acts, b.number < s.calls + 1) ∧ ((a :: s.acts).map Activation.number).Nodup := by
  constructor
  · intro b hb
    rcases List.mem_cons.mp hb with rfl | hb
    · exact ha ▸ Nat.lt_succ_self _
    · exact Nat.lt_succ_of_lt (h.below b hb)
  · refine List.nodup_cons.mpr ⟨fun hmem => ?_, h.distinct⟩
    obtain ⟨b, hb, heq⟩ := List.mem_map.mp hmem
    have hlt := h.below b hb
    omega

/-- A transfer without CALL and RETURN. -/
theorem Tracked.pass (h : Tracked s) (host : Host) (hquiet : Quiet (x.events env s.thread)) :
    Tracked (s.pass x host env) := by
  refine ⟨?_, ?_, h.below, h.distinct⟩
  · exact (unreturned_quiet hquiet _ _).trans h.opens
  · simp only [Execution.pass, tid_code, framesOf_feed hquiet]
    exact h.depth

theorem Tracked.call {callee frameBase : UInt64} (h : Tracked s)
    (hroomy : Roomy (.call callee frameBase) env s.thread) :
    Tracked ((s.pass (.call callee frameBase) host env).enter ⟨s.calls, true,
      knownAt host callee ((Transfer.call callee frameBase).events env s.thread) s.engine⟩) := by
  obtain ⟨before, ev, after, hevents, hbefore, hafter, hkind, haddr, htid⟩ := events_call hroomy
  have hfirst : (before ++ ev :: after).takeWhile (fun ev => decide (kindOf ev ≠ .call)) =
      before := by
    rw [List.takeWhile_append_of_pos fun x hx => decide_eq_true (hbefore x hx).1,
      List.takeWhile_cons_of_neg (by simp [hkind]), List.append_nil]
  have hknown : knownAt host callee ((Transfer.call callee frameBase).events env s.thread) s.engine =
      ((feed host before s.engine).callee ev.addr).isSome := by
    rw [knownAt, hevents, hfirst, haddr]
  obtain ⟨hbelow, hdistinct⟩ := h.fresh (a := ⟨s.calls, true,
    knownAt host callee ((Transfer.call callee frameBase).events env s.thread) s.engine⟩) rfl
  refine ⟨?_, ?_, hbelow, hdistinct⟩
  · simp only [Execution.pass, Execution.enter, hevents, unreturned_append,
      unreturned_quiet hbefore]
    rw [unreturned, List.foldl_cons, hkind]
    exact (unreturned_quiet hafter _ _).trans (by rw [h.opens]; rfl)
  · simp only [Execution.pass, Execution.enter, tid_code]
    rw [hknown, hevents, feed_append]
    have hfeed : feed host (ev :: after) (feed host before s.engine) =
        feed host after (processEvent host ev (feed host before s.engine)) := rfl
    rw [hfeed, framesOf_feed hafter, framesOf_call hkind htid, framesOf_feed hbefore, h.depth,
      List.filter_cons]
    cases ((feed host before s.engine).callee ev.addr).isSome <;> rfl

theorem Tracked.callIndirect (h : Tracked s) {x : Transfer}
    (hquiet : Quiet (x.events env s.thread)) :
    Tracked ((s.pass x host env).enter ⟨s.calls, false, false⟩) := by
  have hpass := h.pass host hquiet
  obtain ⟨hbelow, hdistinct⟩ := h.fresh (a := ⟨s.calls, false, false⟩) rfl
  exact ⟨hpass.opens, hpass.depth, hbelow, hdistinct⟩

/-- What a RETURN does to the open CALLs and the engine's stack. -/
theorem ret_spec (host : Host) {pc : UInt64} (hroomy : Roomy (.ret pc) env s.thread) :
    (s.pass (.ret pc) host env).opens = s.opens.tail ∧
      (s.pass (.ret pc) host env).engine.framesOf (s.pass (.ret pc) host env).thread.tid =
        (s.engine.framesOf s.thread.tid).tail := by
  obtain ⟨ev, hevents, hkind, htid⟩ := events_ret hroomy
  constructor
  · simp only [Execution.pass, hevents]
    rw [unreturned, List.foldl_cons, hkind]
    rfl
  · simp only [Execution.pass, tid_code, hevents]
    exact framesOf_ret hkind htid

/-- The RETURN closes the CALL of the last call exactly if this was a direct one. -/
theorem Tracked.paired_iff (h : Tracked s) {top : Activation} {rest : List Activation}
    (hacts : s.acts = top :: rest) : s.opens.head? = some top.number ↔ top.direct = true := by
  have hdistinct := h.distinct
  rw [hacts, List.map_cons, List.nodup_cons] at hdistinct
  rw [h.opens, hacts, List.filter_cons]
  cases hdirect : top.direct with
  | true => simp
  | false =>
      simp only [Bool.false_eq_true, if_false, iff_false]
      intro hhead
      obtain ⟨a, ha, heq⟩ := List.mem_map.mp (List.mem_of_mem_head? hhead)
      exact hdistinct.1 (heq ▸ List.mem_map_of_mem (List.mem_filter.mp ha).1)

/-- Behind it the stacks are equally deep exactly if nothing or only known direct calls
were around. -/
theorem Tracked.depth_iff (h : Tracked s) {top : Activation} {rest : List Activation}
    (hacts : s.acts = top :: rest) :
    (s.engine.framesOf s.thread.tid).tail.length = rest.length ↔
      rest = [] ∨ ∀ a ∈ s.acts, a.direct = true ∧ a.known = true := by
  have hdepth := h.depth
  have hle := List.length_filter_le (fun a : Activation => a.direct && a.known) s.acts
  have hall : (s.acts.filter fun a => a.direct && a.known).length = s.acts.length ↔
      ∀ a ∈ s.acts, a.direct = true ∧ a.known = true := by
    rw [List.length_filter_eq_length_iff]
    simp only [Bool.and_eq_true]
  have hlen : s.acts.length = rest.length + 1 := by rw [hacts, List.length_cons]
  rw [← hall, ← hdepth, List.length_tail, ← List.length_eq_zero_iff]
  rw [← hdepth] at hle
  omega

/-- A return that meets the condition leaves the stacks in step, and only such a one. -/
theorem Tracked.ret {pc : UInt64} {top : Activation} {rest : List Activation} (h : Tracked s)
    (hroomy : Roomy (.ret pc) env s.thread) (hacts : s.acts = top :: rest) :
    let t := (s.pass (.ret pc) host env).leave rest (s.opens.head? == some top.number)
    (t.balanced = true ↔ s.balanced = true ∧ Returns (.transfer (.ret pc) host env) s) ∧
      (t.balanced = true → Tracked t) := by
  obtain ⟨hopens, hframes⟩ := ret_spec host hroomy
  have hbalanced : ((s.pass (.ret pc) host env).leave rest
      (s.opens.head? == some top.number)).balanced = true ↔
        s.balanced = true ∧ Returns (.transfer (.ret pc) host env) s := by
    simp only [Execution.leave, Bool.and_eq_true, beq_iff_eq, hframes]
    rw [and_assoc, show (s.pass (.ret pc) host env).balanced = s.balanced from rfl,
      h.paired_iff hacts]
    refine and_congr_right fun _ => ?_
    constructor
    · rintro ⟨hdirect, hdepth⟩ top' rest' hacts'
      obtain ⟨rfl, rfl⟩ := List.cons.inj (hacts.symm.trans hacts')
      exact ⟨hdirect, (h.depth_iff hacts).mp hdepth⟩
    · intro hreturns
      obtain ⟨hdirect, haround⟩ := hreturns top rest hacts
      exact ⟨hdirect, (h.depth_iff hacts).mpr haround⟩
  refine ⟨hbalanced, fun hgood => ?_⟩
  obtain ⟨hdirect, haround⟩ := (hbalanced.mp hgood).2 top rest hacts
  refine ⟨?_, ?_, fun a ha => h.below a (hacts ▸ List.mem_cons_of_mem _ ha), ?_⟩
  · simp only [Execution.leave, hopens, h.opens, hacts, List.filter_cons, hdirect, if_true,
      List.map_cons, List.tail_cons]
  · have hcount : (s.engine.framesOf s.thread.tid).tail.length =
        (rest.filter fun a => a.direct && a.known).length := by
      rw [(h.depth_iff hacts).mpr haround]
      rcases haround with rfl | haround
      · rfl
      · rw [List.filter_eq_self.mpr fun a ha => by
          simpa using haround a (hacts ▸ List.mem_cons_of_mem _ ha)]
    simp only [Execution.leave, hframes]
    exact hcount
  · have hdistinct := h.distinct
    rw [hacts, List.map_cons, List.nodup_cons] at hdistinct
    exact hdistinct.2

theorem Tracked.between {u : Thread} {inputs : List Input} (h : Tracked s)
    (htid : u.tid = s.thread.tid) (hquiet : inputs.all Input.isQuiet = true) :
    Tracked { s with thread := u, engine := Input.run inputs s.engine } := by
  refine ⟨h.opens, ?_, h.below, h.distinct⟩
  simp only [htid, framesOf_quietRun hquiet]
  exact h.depth

/-- One step: it stays in balance exactly if its return meets the condition. -/
theorem Tracked.step {l : ExecLabel} (h : Tracked s) (hs : Execution.step l s = some t) :
    (t.balanced = true ↔ s.balanced = true ∧ Returns l s) ∧ (t.balanced = true → Tracked t) := by
  have hidle {u : Execution} (hu : Tracked u) (hsame : u.balanced = s.balanced)
      (hreturns : Returns l s) :
      (u.balanced = true ↔ s.balanced = true ∧ Returns l s) ∧ (u.balanced = true → Tracked u) :=
    ⟨by rw [hsame]; exact ⟨fun hb => ⟨hb, hreturns⟩, And.left⟩, fun _ => hu⟩
  cases l with
  | between u inputs =>
      simp only [Execution.step] at hs
      split at hs
      · rename_i hok
        obtain rfl := Option.some.inj hs
        exact hidle (h.between hok.1 hok.2) rfl trivial
      · cases hs
  | transfer x host env =>
      simp only [Execution.step] at hs
      split at hs
      · rename_i hroomy
        cases x with
        | call callee frameBase =>
            obtain rfl := Option.some.inj hs
            exact hidle (h.call hroomy) rfl trivial
        | callIndirect callee frameBase =>
            obtain rfl := Option.some.inj hs
            exact hidle (h.callIndirect (fun ev hev => by cases hev)) rfl trivial
        | ret pc =>
            dsimp only at hs
            split at hs
            · cases hs
            · rename_i top rest hacts
              obtain rfl := Option.some.inj hs
              exact h.ret hroomy hacts
        | jump moduleBase here target frameBase =>
            obtain rfl := Option.some.inj hs
            exact hidle (h.pass host (events_jump moduleBase here target frameBase)) rfl trivial
        | jumpIndirect target =>
            obtain rfl := Option.some.inj hs
            exact hidle (h.pass host fun ev hev => by cases hev) rfl trivial
      · cases hs

end Pass

theorem Tracked.start (tid : UInt16) (mem : Memory) (info : Option DwarfInfo) :
    Tracked (.start tid mem info) :=
  ⟨rfl, rfl, by simp [Execution.start], List.nodup_nil⟩

/-- A return out of step is not made up for. -/
theorem balanced_of_step {s t : Execution} {l : ExecLabel} (hs : Execution.step l s = some t)
    (h : t.balanced = true) : s.balanced = true := by
  cases l with
  | between u inputs =>
      simp only [Execution.step] at hs
      split at hs
      · obtain rfl := Option.some.inj hs
        exact h
      · cases hs
  | transfer x host env =>
      simp only [Execution.step] at hs
      split at hs
      · cases x with
        | ret pc =>
            dsimp only at hs
            split at hs
            · cases hs
            · obtain rfl := Option.some.inj hs
              simp only [leave, Bool.and_eq_true] at h
              exact h.1.1
        | call | callIndirect | jump | jumpIndirect =>
            obtain rfl := Option.some.inj hs
            exact h
      · cases hs

end Execution

/-- In every run each RETURN closes the CALL of the call it ends and leaves the engine's
stack as deep as the program's exactly if each return meets the condition. -/
theorem returns_balance_iff (tid : UInt16) (mem : Memory) (info : Option DwarfInfo)
    (ls : List ExecLabel) :
    (∀ front, front <+: ls → ∀ s,
      Transition.exec Execution.step front (.start tid mem info) = some s → s.balanced = true) ↔
    ∀ front l, front ++ [l] <+: ls → ∀ s t,
      Transition.exec Execution.step front (.start tid mem info) = some s →
        Execution.step l s = some t → Returns l s := by
  have htracked : ∀ front s, Transition.exec Execution.step front (.start tid mem info) = some s →
      s.balanced = true → s.Tracked := by
    intro front
    induction front using List.reverseRecOn with
    | nil =>
        intro s hs _
        obtain rfl := Option.some.inj hs
        exact .start tid mem info
    | append_singleton front l ih =>
        intro t ht hbalanced
        obtain ⟨s, hs, hu⟩ := exec_snoc_iff.mp ht
        exact ((ih s hs (Execution.balanced_of_step hu hbalanced)).step hu).2 hbalanced
  refine forall_prefix_iff ?_ ?_ ls
  · rintro s hs
    obtain rfl := Option.some.inj hs
    rfl
  · intro front l hfront
    constructor
    · intro hnext s t hs ht
      have hend := exec_snoc_iff.mpr ⟨s, hs, ht⟩
      exact (((htracked front s hs (hfront s hs)).step ht).1.mp (hnext t hend)).2
    · intro hok t ht
      obtain ⟨s, hs, hu⟩ := exec_snoc_iff.mp ht
      have hbalanced := hfront s hs
      exact ((htracked front s hs hbalanced).step hu).1.mpr ⟨hbalanced, hok s t hs hu⟩

/-- The function at 0x1000 calls itself through a pointer, and that call returns. -/
def indirectCall : List ExecLabel :=
  [.transfer (.call 0x1000 0x7000) .plain .plain,
    .transfer (.callIndirect 0x1000 0x6ff0) .plain .plain,
    .transfer (.ret 0x1080) .plain .plain]

/-- Its RETURN closes the CALL of the function, which goes on, and takes its frame. -/
theorem indirect_return_takes_frame : ∃ s,
    Transition.exec Execution.step indirectCall (.start 1 (fun _ => some 0) oneFunction.dwarfInfo) =
      some s ∧ s.acts.length = 1 ∧ s.opens = [] ∧ s.engine.framesOf 1 = [] ∧
        s.balanced = false := by
  have hrun : (Transition.exec Execution.step indirectCall
      (.start 1 (fun _ => some 0) oneFunction.dwarfInfo)).any (fun s =>
        s.acts.length = 1 && s.opens = [] && s.engine.framesOf 1 = [] && s.balanced = false) =
          true := by
    decide +kernel
  obtain ⟨s, hs, hfacts⟩ := (Option.any_eq_true _ _).mp hrun
  simp only [Bool.and_eq_true, decide_eq_true_eq] at hfacts
  obtain ⟨⟨⟨hacts, hopens⟩, hframes⟩, hbalanced⟩ := hfacts
  exact ⟨s, hs, hacts, hopens, hframes, hbalanced⟩

end Rtmap.Engine
