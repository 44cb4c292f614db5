import Rtmap.Lib.Transition
import Rtmap.Tracer.WritePath

/-!
# The announcement of the main module

The first thread to change the phase from 1 to 2 in `at_call` pushes the
MODULE_LOAD event, once, into its own ring. What the interleavings of any number
of calls can do to it is said by `Announcing`: until then the log holds neither the
event nor a CALL of that thread.
-/
namespace Rtmap.Tracer
open Rtmap.Ring Transition

/-- The push of `maybe_emit_module_load`. -/
def moduleLoadOp (base : UInt64) (tid : UInt16) (seq : UInt32) : Op :=
  .pushExFlags base 0 0 EVENT_MODULE_LOAD 0 tid seq

def callOp (callee frameBase : UInt64) (tid : UInt16) (seq : UInt32) : Op :=
  .pushExFlags callee 0 frameBase EVENT_CALL 0 tid seq

/-- Where a thread stands in `at_call`: past the gates and the flush, past the load
of a phase of 1, past its own change of the phase, past `maybe_emit_module_load`,
and past the push of the CALL. -/
inductive CallStage where
  | outside
  | flushed (callee frameBase : UInt64)
  | ready (callee frameBase : UInt64)
  | won (callee frameBase : UInt64)
  | announced (callee frameBase : UInt64)
  | called
deriving DecidableEq

namespace CallStage

def isReady : CallStage → Bool
  | .ready .. => true
  | _ => false

def isWon : CallStage → Bool
  | .won .. => true
  | _ => false

/-- `maybe_emit_module_load` has returned. -/
def isPast : CallStage → Bool
  | .announced .. | .called => true
  | _ => false

end CallStage

/-- A thread with its ring. `since` says that its call began when the phase was no
longer 0, and `calls` counts those of them that have returned. -/
structure Caller where
  capacity : Capacity
  tid : UInt16
  seq : UInt32 := 0
  head : ℕ := 0
  tail : ℕ := 0
  stage : CallStage := .outside
  since : Bool := false
  calls : ℕ := 0

/-- An accepted push, and whether the phase was no longer 0. -/
structure Pushed where
  thread : ℕ
  op : Op
  since : Bool

def Pushed.kind (e : Pushed) : UInt8 := (e.op.slot 0).kind

/-- `g_module_base_phase`, `g_module_base`, `g_insn_counter` and the threads, with
what they have pushed and the thread that changed the phase to 2. -/
structure Session where
  phase : ℕ := 0
  base : UInt64 := 0
  insnCounter : UInt64 := 0
  callers : List Caller := []
  log : List Pushed := []
  winner : Option ℕ := none

/-- The end of a call. -/
def Caller.back (c : Caller) : Caller :=
  { c with stage := .outside, calls := if c.since then c.calls + 1 else c.calls }

namespace Session

def withCaller (s : Session) (k : ℕ) (c : Caller) : Session :=
  { s with callers := s.callers.set k c }

/-- A push of thread `k` in the middle of its call. -/
def push (s : Session) (k : ℕ) (c : Caller) (op : Op) : Session :=
  let c := { c with seq := c.seq + 1 }
  if op.admits c.capacity.size c.head c.tail then
    { s.withCaller k { c with head := c.head + op.slots.length } with
      log := s.log ++ [⟨k, op, s.phase != 0⟩] }
  else s.withCaller k c

/-- The next access of thread `k` in its call; `regs` is what `dr_get_mcontext` gives. -/
def next (k : ℕ) (regs : Option (ℕ → UInt64)) (s : Session) : Option Session :=
  match s.callers[k]? with
  | none => none
  | some c =>
      match c.stage with
      | .outside => none
      | .flushed callee frameBase =>
          let stage := if s.phase = 1 then .ready callee frameBase else .announced callee frameBase
          some (s.withCaller k { c with stage := stage })
      | .ready callee frameBase =>
          if s.phase = 1 then
            some { s.withCaller k { c with stage := .won callee frameBase } with
              phase := 2
              winner := some k }
          else some (s.withCaller k { c with stage := .announced callee frameBase })
      | .won callee frameBase =>
          some (s.push k { c with stage := .announced callee frameBase }
            (moduleLoadOp s.base c.tid c.seq))
      | .announced callee frameBase =>
          some (s.push k { c with stage := .called } (callOp callee frameBase c.tid c.seq))
      | .called =>
          let s := { s with insnCounter := s.insnCounter + 8 }
          match regs with
          | none => some (s.withCaller k c.back)
          | some regs => some (s.push k c.back (.pushRegSnapshot s.insnCounter regs c.tid c.seq))

end Session

/-- `moduleLoad` is `event_module_load` for the first module of the program itself.
Between its calls a thread fills its ring with other events, and the engine takes
events off. -/
inductive CallLabel where
  | thread (capacity : Capacity) (tid : UInt16)
  | moduleLoad (base : UInt64)
  | enter (k : ℕ) (callee frameBase : UInt64)
  | next (k : ℕ) (regs : Option (ℕ → UInt64))
  | emit (k n : ℕ)
  | consume (k n : ℕ)

namespace Session

def step : CallLabel → Session → Option Session
  | .thread capacity tid, s =>
      some { s with callers := s.callers ++ [{ capacity := capacity, tid := tid }] }
  | .moduleLoad base, s => some (if s.phase = 0 then { s with base := base, phase := 1 } else s)
  | .enter k callee frameBase, s =>
      s.callers[k]?.bind fun c =>
        if c.stage = .outside then
          some (s.withCaller k { c with
            stage := .flushed callee frameBase
            since := s.phase != 0 })
        else none
  | .next k regs, s => s.next k regs
  | .emit k n, s =>
      s.callers[k]?.bind fun c =>
        if c.stage = .outside then
          some (s.withCaller k { c with head := c.head + n })
        else none
  | .consume k n, s =>
      s.callers[k]?.bind fun c =>
        if c.tail + n ≤ c.head then
          some (s.withCaller k { c with tail := c.tail + n })
        else none

/-- Thread `k` has pushed a CALL since the phase is no longer 0. -/
def HasCalled (s : Session) (k : ℕ) : Prop :=
  ∃ e ∈ s.log, e.thread = k ∧ e.since = true ∧ e.kind = EVENT_CALL

def Announced (s : Session) : Prop := ∃ e ∈ s.log, e.kind = EVENT_MODULE_LOAD

end Session

/-- The condition of a run: the push of the announcement finds room, and the thread
that makes it was not past the phase of an earlier call when the module was loaded. -/
def Announces : CallLabel → Session → Prop
  | .next k _, s => ∀ c ∈ s.callers[k]?,
      (c.stage.isWon = true →
        (moduleLoadOp s.base c.tid c.seq).admits c.capacity.size c.head c.tail = true) ∧
      (c.stage.isReady = true → s.phase = 1 → ¬s.HasCalled k)
  | _, _ => True

instance (s : Session) (k : ℕ) : Decidable (s.HasCalled k) :=
  inferInstanceAs (Decidable (∃ e ∈ s.log, e.thread = k ∧ e.since = true ∧ e.kind = EVENT_CALL))

instance : (l : CallLabel) → (s : Session) → Decidable (Announces l s)
  | .next k _, s => inferInstanceAs (Decidable (∀ c ∈ s.callers[k]?,
      (c.stage.isWon = true →
        (moduleLoadOp s.base c.tid c.seq).admits c.capacity.size c.head c.tail = true) ∧
      (c.stage.isReady = true → s.phase = 1 → ¬s.HasCalled k)))
  | .thread .., _ | .moduleLoad _, _ | .enter .., _ | .emit .., _ | .consume .., _ => .isTrue trivial

/-- What a caller's place in its call says about the session. -/
structure Caller.Fits (s : Session) (k : ℕ) (c : Caller) : Prop where
  won : c.stage.isWon = true → s.winner = some k ∧ ¬s.Announced ∧ ¬s.HasCalled k
  begun : c.since = true ∨ c.stage.isReady = true → s.phase ≠ 0
  past : c.since = true → c.stage.isPast = true → s.phase = 2
  counted : 0 < c.calls → s.phase = 2

/-- The announcement comes once, and before the CALLs of the thread that makes it. -/
def Session.Ordered (s : Session) (k : ℕ) : Prop :=
  ∃ front e rest, s.log = front ++ e :: rest ∧ e.kind = EVENT_MODULE_LOAD ∧
    (∀ x ∈ front, x.kind ≠ EVENT_MODULE_LOAD ∧
      ¬(x.thread = k ∧ x.since = true ∧ x.kind = EVENT_CALL)) ∧
    ∀ x ∈ rest, x.kind ≠ EVENT_MODULE_LOAD

/-- The thread that changed the phase is about to announce the module, or has. -/
structure Announcing (s : Session) : Prop where
  range : s.phase ≤ 2
  phase : s.phase = 2 ↔ s.winner.isSome = true
  callers : ∀ (k : ℕ) (c : Caller), s.callers[k]? = some c → c.Fits s k
  before : s.winner = none → ¬s.Announced
  after : ∀ k, s.winner = some k →
    (∃ c, s.callers[k]? = some c ∧ c.stage.isWon = true) ∨ s.Ordered k

section Kinds

@[simp] theorem kind_moduleLoadOp (k : ℕ) (base : UInt64) (tid : UInt16) (seq : UInt32)
    (since : Bool) : (⟨k, moduleLoadOp base tid seq, since⟩ : Pushed).kind = EVENT_MODULE_LOAD :=
  kind_makeKf _ _ _

@[simp] theorem kind_callOp (k : ℕ) (callee frameBase : UInt64) (tid : UInt16) (seq : UInt32)
    (since : Bool) : (⟨k, callOp callee frameBase tid seq, since⟩ : Pushed).kind = EVENT_CALL :=
  kind_makeKf _ _ _

@[simp] theorem kind_snapshotOp (k : ℕ) (insn : UInt64) (regs : ℕ → UInt64) (tid : UInt16)
    (seq : UInt32) (since : Bool) :
    (⟨k, .pushRegSnapshot insn regs tid seq, since⟩ : Pushed).kind = EVENT_REG_SNAPSHOT :=
  kind_makeKf _ _ _

end Kinds

section Move
variable {s t : Session} {k : ℕ} {c c' : Caller} {q : List Pushed}

theorem announced_append (hlog : t.log = s.log ++ q)
    (hnew : ∀ e ∈ q, e.kind ≠ EVENT_MODULE_LOAD) : t.Announced ↔ s.Announced := by
  simp only [Session.Announced, hlog, List.mem_append]
  grind

theorem hasCalled_append {j : ℕ} (hlog : t.log = s.log ++ q) (hnew : ∀ e ∈ q, e.thread ≠ j) :
    t.HasCalled j ↔ s.HasCalled j := by
  simp only [Session.HasCalled, hlog, List.mem_append]
  grind

/-- A thread that has not just changed the phase goes on in its call. -/
theorem Announcing.move (h : Announcing s) (hk : s.callers[k]? = some c)
    (hcallers : t.callers = s.callers.set k c') (hlog : t.log = s.log ++ q)
    (hphase : t.phase = s.phase) (hwinner : t.winner = s.winner)
    (hnew : ∀ e ∈ q, e.thread = k ∧ e.kind ≠ EVENT_MODULE_LOAD)
    (hnotWon : c.stage.isWon = true → q = [] ∧ c'.stage = c.stage)
    (hnotWon' : c'.stage.isWon = true → c.stage.isWon = true)
    (hbegun : c'.since = true ∨ c'.stage.isReady = true → s.phase ≠ 0)
    (hpast : c'.since = true → c'.stage.isPast = true → s.phase = 2)
    (hcounted : 0 < c'.calls → s.phase = 2) : Announcing t where
  range := hphase ▸ h.range
  phase := by rw [hphase, hwinner, h.phase]
  callers := by
    have hann := announced_append hlog fun e he => (hnew e he).2
    intro j x hj
    rw [hcallers] at hj
    rcases getElem?_set_cases hj with ⟨rfl, rfl⟩ | ⟨hne, hj⟩
    · refine ⟨fun hwon => ?_, by rwa [hphase], by rwa [hphase], by rwa [hphase]⟩
      have hbefore := (h.callers j c hk).won (hnotWon' hwon)
      obtain ⟨rfl, -⟩ := hnotWon (hnotWon' hwon)
      rw [hwinner, hann, hasCalled_append hlog (by simp)]
      exact hbefore
    · obtain ⟨hwon, hb, hp, hc⟩ := h.callers j x hj
      rw [← hphase] at hb hp hc
      refine ⟨fun hw => ?_, hb, hp, hc⟩
      rw [hwinner, hann, hasCalled_append hlog fun e he => (hnew e he).1 ▸ Ne.symm hne]
      exact hwon hw
  before := by
    rw [hwinner, announced_append hlog fun e he => (hnew e he).2]
    exact h.before
  after := by
    intro j hj
    rw [hwinner] at hj
    rcases h.after j hj with ⟨x, hx, hwon⟩ | ⟨front, e, rest, hsplit, he, hfront, hrest⟩
    · left
      rw [hcallers]
      by_cases hjk : k = j
      · subst hjk
        rw [hk] at hx
        obtain rfl := Option.some.inj hx
        exact ⟨c', by rw [getElem?_set_self_of_some hk],
          by rw [(hnotWon hwon).2]; exact hwon⟩
      · exact ⟨x, by rw [List.getElem?_set_ne hjk, hx], hwon⟩
    · right
      refine ⟨front, e, rest ++ q, by rw [hlog, hsplit]; simp, he, hfront, fun x hx => ?_⟩
      rcases List.mem_append.mp hx with hx | hx
      · exact hrest x hx
      · exact (hnew x hx).2

/-- So it does when it pushes nothing. -/
theorem Announcing.turn (h : Announcing s) (hk : s.callers[k]? = some c)
    (hnotWon : c.stage.isWon = true → c'.stage = c.stage)
    (hnotWon' : c'.stage.isWon = true → c.stage.isWon = true)
    (hbegun : c'.since = true ∨ c'.stage.isReady = true → s.phase ≠ 0)
    (hpast : c'.since = true → c'.stage.isPast = true → s.phase = 2)
    (hcounted : 0 < c'.calls → s.phase = 2) : Announcing (s.withCaller k c') := by
  have hlog : (s.withCaller k c').log = s.log ++ [] := (List.append_nil s.log).symm
  exact h.move hk rfl hlog rfl rfl (by simp) (fun hwon => ⟨rfl, hnotWon hwon⟩) hnotWon' hbegun hpast
    hcounted

theorem log_push (c : Caller) (op : Op) : ∃ c' q, (s.push k c op).callers = s.callers.set k c' ∧
    (s.push k c op).log = s.log ++ q ∧ (s.push k c op).phase = s.phase ∧
    (s.push k c op).winner = s.winner ∧ c'.stage = c.stage ∧ c'.since = c.since ∧
    c'.calls = c.calls ∧ ∀ e ∈ q, e = ⟨k, op, s.phase != 0⟩ := by
  unfold Session.push
  dsimp only
  split
  · exact ⟨_, [_], rfl, rfl, rfl, rfl, rfl, rfl, rfl, by simp⟩
  · exact ⟨_, [], rfl, by simp [Session.withCaller], rfl, rfl, rfl, rfl, rfl, by simp⟩

/-- A push of another kind than the announcement. -/
theorem Announcing.push (h : Announcing s) (hk : s.callers[k]? = some c) {op : Op} {c₀ : Caller}
    (hkind : (⟨k, op, s.phase != 0⟩ : Pushed).kind ≠ EVENT_MODULE_LOAD)
    (hnotWon : c.stage.isWon = false) (hnotWon' : c₀.stage.isWon = false)
    (hready : c₀.stage.isReady = false) (hsince : c₀.since = c.since)
    (hpast : c.since = true → s.phase = 2) (hcounted : 0 < c₀.calls → s.phase = 2) :
    Announcing (s.push k c₀ op) := by
  obtain ⟨c', q, hcallers, hlog, hphase, hwinner, hstage, hsince', hcalls, hnew⟩ :=
    log_push (s := s) (k := k) c₀ op
  refine h.move hk hcallers hlog hphase hwinner (fun e he => ?_) ?_ ?_ ?_ ?_ ?_
  · rw [hnew e he]
    exact ⟨rfl, hkind⟩
  · rw [hnotWon]
    nofun
  · rw [hstage, hnotWon']
    nofun
  · rw [hstage, hready, hsince', hsince]
    rintro (hc | hc)
    · rw [hpast hc]
      decide
    · cases hc
  · rw [hsince', hsince]
    exact fun hc _ => hpast hc
  · rwa [hcalls]

/-- The announcement itself. -/
theorem Announcing.announce (h : Announcing s) (hk : s.callers[k]? = some c)
    {callee frameBase : UInt64} (hstage : c.stage = .won callee frameBase)
    (hroom : (moduleLoadOp s.base c.tid c.seq).admits c.capacity.size c.head c.tail = true) :
    Announcing (s.push k { c with stage := .announced callee frameBase }
      (moduleLoadOp s.base c.tid c.seq)) := by
  obtain ⟨hwon, hbegun, -, hcounted⟩ := h.callers k c hk
  obtain ⟨hwinner, hann, hcall⟩ := hwon (by rw [hstage]; rfl)
  have htwo : s.phase = 2 := h.phase.mpr (by rw [hwinner]; rfl)
  unfold Session.push
  dsimp only
  rw [if_pos hroom]
  refine ⟨h.range, h.phase, fun j x hj => ?_, fun hnone => ?_, fun j hj => .inr ?_⟩
  · rcases getElem?_set_cases hj with ⟨rfl, rfl⟩ | ⟨hne, hj⟩
    · exact ⟨nofun, fun _ => by simp [Session.withCaller, htwo], fun _ _ => htwo, fun _ => htwo⟩
    · obtain ⟨hw, hb, hp, hc⟩ := h.callers j x hj
      refine ⟨fun hwon => ?_, hb, hp, hc⟩
      have hother := (hw hwon).1
      rw [hwinner] at hother
      exact absurd (Option.some.inj hother).symm hne
  · simp only [Session.withCaller] at hnone
    rw [hwinner] at hnone
    cases hnone
  · simp only [Session.withCaller] at hj
    rw [hwinner] at hj
    obtain rfl := Option.some.inj hj
    refine ⟨s.log, _, [], rfl, kind_moduleLoadOp .., fun x hx => ⟨fun hkind => ?_, fun hx' => ?_⟩,
      by simp⟩
    · exact hann ⟨x, hx, hkind⟩
    · exact hcall ⟨x, hx, hx'⟩

/-- The change of the phase. -/
theorem Announcing.win (h : Announcing s) (hk : s.callers[k]? = some c)
    {callee frameBase : UInt64} (hone : s.phase = 1) (hcall : ¬s.HasCalled k) :
    Announcing { s.withCaller k { c with stage := .won callee frameBase } with
      phase := 2
      winner := some k } := by
  have hnone : s.winner = none := by
    cases hw : s.winner with
    | none => rfl
    | some j =>
        have htwo := h.phase.mpr (by rw [hw]; rfl)
        omega
  refine ⟨Nat.le_refl 2, by simp, fun j x hj => ?_, nofun, fun j hj => .inl ?_⟩
  · rcases getElem?_set_cases hj with ⟨rfl, rfl⟩ | ⟨hne, hj⟩
    · exact ⟨fun _ => ⟨rfl, h.before hnone, hcall⟩, fun _ => nofun, fun _ _ => rfl, fun _ => rfl⟩
    · obtain ⟨hw, hb, hp, hc⟩ := h.callers j x hj
      refine ⟨fun hwon => ?_, fun _ => nofun, fun _ _ => rfl, fun _ => rfl⟩
      have hother := (hw hwon).1
      rw [hnone] at hother
      cases hother
  · obtain rfl := Option.some.inj hj
    exact ⟨_, getElem?_set_self_of_some hk, rfl⟩

/-- The instruction counter has no part in it. -/
theorem Announcing.counting (h : Announcing s) (n : UInt64) :
    Announcing { s with insnCounter := n } := by
  refine ⟨h.range, h.phase, fun j x hj => ?_, h.before, h.after⟩
  obtain ⟨hwon, hbegun, hpast, hcounted⟩ := h.callers j x hj
  exact ⟨hwon, hbegun, hpast, hcounted⟩

theorem Announcing.next {regs : Option (ℕ → UInt64)} (h : Announcing s)
    (hok : Announces (.next k regs) s) (hs : s.next k regs = some t) : Announcing t := by
  unfold Session.next at hs
  split at hs
  · cases hs
  · rename_i c hk
    obtain ⟨hroom, hfirst⟩ := hok c hk
    obtain ⟨-, hbegun, hpast, hcounted⟩ := h.callers k c hk
    have hrange := h.range
    split at hs
    · cases hs
    · rename_i callee frameBase hstage
      obtain rfl := Option.some.inj hs
      have hsince (hc : c.since = true) : s.phase ≠ 0 := hbegun (.inl hc)
      by_cases hone : s.phase = 1
      · refine h.turn hk (by simp [hstage, CallStage.isWon]) ?_ (fun _ => by omega) ?_ hcounted
        · simp [hone, CallStage.isWon]
        · intro _ hpast
          simp only [if_pos hone] at hpast
          cases hpast
      · refine h.turn hk (by simp [hstage, CallStage.isWon]) ?_ ?_ ?_ hcounted
        · simp [hone, CallStage.isWon]
        · simpa [hone, CallStage.isReady] using hsince
        · intro hc _
          have hne := hsince hc
          omega
    · rename_i callee frameBase hstage
      have hne : s.phase ≠ 0 := hbegun (.inr (by rw [hstage]; rfl))
      split at hs
      · rename_i hone
        obtain rfl := Option.some.inj hs
        exact h.win hk hone (hfirst (by rw [hstage]; rfl) hone)
      · rename_i htwo
        obtain rfl := Option.some.inj hs
        exact h.turn hk (by simp [hstage, CallStage.isWon]) (by simp [CallStage.isWon])
          (fun _ => hne) (fun _ _ => by omega) hcounted
    · rename_i callee frameBase hstage
      obtain rfl := Option.some.inj hs
      exact h.announce hk hstage (hroom (by rw [hstage]; rfl))
    · rename_i callee frameBase hstage
      obtain rfl := Option.some.inj hs
      refine h.push hk ?_ (by rw [hstage]; rfl) rfl rfl rfl
        (fun hc => hpast hc (by rw [hstage]; rfl)) hcounted
      rw [kind_callOp]
      decide
    · rename_i hstage
      have hback (hc : 0 < c.back.calls) : s.phase = 2 := by
        cases hsince : c.since with
        | false => exact hcounted (by simpa [Caller.back, hsince] using hc)
        | true => exact hpast hsince (by rw [hstage]; rfl)
      have hcount := h.counting (s.insnCounter + 8)
      dsimp only at hs
      split at hs
      · obtain rfl := Option.some.inj hs
        exact hcount.turn hk (by simp [hstage, CallStage.isWon])
          (by simp [Caller.back, CallStage.isWon])
          (fun hor => hbegun (hor.imp id nofun)) nofun hback
      · obtain rfl := Option.some.inj hs
        refine hcount.push hk ?_ (by rw [hstage]; rfl) rfl rfl rfl
          (fun hc => hpast hc (by rw [hstage]; rfl)) hback
        rw [kind_snapshotOp]
        decide

theorem Announcing.step {l : CallLabel} (h : Announcing s) (hok : Announces l s)
    (hs : Session.step l s = some t) : Announcing t := by
  cases l with
  | thread capacity tid =>
      obtain rfl := Option.some.inj hs
      refine ⟨h.range, h.phase, fun j x hj => ?_, h.before, fun j hj => ?_⟩
      · rw [List.getElem?_append] at hj
        split at hj
        · obtain ⟨hw, hb, hp, hc⟩ := h.callers j x hj
          exact ⟨hw, hb, hp, hc⟩
        · obtain rfl := List.mem_singleton.mp (List.mem_of_getElem? hj)
          exact ⟨nofun, by simp [CallStage.isReady], nofun, nofun⟩
      · rcases h.after j hj with ⟨x, hx, hwon⟩ | hordered
        · exact .inl ⟨x, by
            rw [List.getElem?_append_left (List.getElem?_eq_some_iff.mp hx).choose, hx], hwon⟩
        · exact .inr hordered
  | moduleLoad base =>
      obtain rfl := Option.some.inj hs
      split
      · rename_i hzero
        refine ⟨by simp, ?_, fun j x hj => ?_, h.before, h.after⟩
        · have hphase := h.phase
          rw [hzero] at hphase
          simpa using hphase
        · obtain ⟨hw, hb, hp, hc⟩ := h.callers j x hj
          rw [hzero] at hp hc
          exact ⟨hw, fun _ => by simp, fun hs hpast => absurd (hp hs hpast) (by decide),
            fun hcalls => absurd (hc hcalls) (by decide)⟩
      · exact h
  | enter k callee frameBase =>
      obtain ⟨c, hk, hs⟩ := Option.bind_eq_some_iff.mp hs
      obtain ⟨-, hbegun, hpast, hcounted⟩ := h.callers k c hk
      split at hs
      · rename_i hstage
        obtain rfl := Option.some.inj hs
        exact h.turn hk (by simp [hstage, CallStage.isWon]) (by simp [CallStage.isWon])
          (by simp [CallStage.isReady]) nofun hcounted
      · cases hs
  | next k regs => exact h.next hok hs
  | emit k n | consume k n =>
      obtain ⟨c, hk, hs⟩ := Option.bind_eq_some_iff.mp hs
      obtain ⟨-, hbegun, hpast, hcounted⟩ := h.callers k c hk
      split at hs
      · obtain rfl := Option.some.inj hs
        exact h.turn hk (fun _ => rfl) id hbegun hpast hcounted
      · cases hs

theorem Announcing.run (h : Reach Session.step Announces {} s) : Announcing s :=
  h.invariant ⟨by decide, by simp, by simp, by simp [Session.Announced], nofun⟩
    fun _ _ _ hu hok hs => hu.step hok hs

theorem count_of_not_announced (h : ¬s.Announced) :
    s.log.countP (fun e => e.kind == EVENT_MODULE_LOAD) = 0 := by
  refine List.countP_eq_zero.mpr fun x hx => ?_
  simpa using fun hkind => h ⟨x, hx, hkind⟩

theorem Session.Ordered.count {k : ℕ} (h : s.Ordered k) :
    s.log.countP (fun e => e.kind == EVENT_MODULE_LOAD) = 1 := by
  obtain ⟨front, e, rest, hlog, he, hfront, hrest⟩ := h
  have hzero (xs : List Pushed) (hxs : ∀ x ∈ xs, x.kind ≠ EVENT_MODULE_LOAD) :
      xs.countP (fun e => e.kind == EVENT_MODULE_LOAD) = 0 :=
    List.countP_eq_zero.mpr fun x hx => by simpa using hxs x hx
  rw [hlog, List.countP_append, List.countP_cons, hzero front fun x hx => (hfront x hx).1,
    hzero rest hrest, he]
  rfl

/-- A CALL of the thread that the order is about comes behind the announcement. -/
theorem Session.Ordered.before_call {k : ℕ} (h : s.Ordered k) {front rest : List Pushed} {e : Pushed}
    (hlog : s.log = front ++ e :: rest) (hthread : e.thread = k) (hsince : e.since = true)
    (hkind : e.kind = EVENT_CALL) : ∃ x ∈ front, x.kind = EVENT_MODULE_LOAD := by
  obtain ⟨front', e', rest', hlog', he', hfront', -⟩ := h
  have hne : e ≠ e' := by
    rintro rfl
    rw [he'] at hkind
    cases hkind
  rw [hlog] at hlog'
  rcases List.append_eq_append_iff.mp hlog' with ⟨mid, hfr, hmid⟩ | ⟨mid, hfr, hmid⟩
  · cases mid with
    | nil => exact absurd (List.cons.inj hmid).1 hne
    | cons x mid =>
        obtain ⟨rfl, -⟩ := List.cons.inj hmid
        have hin : e ∈ front' := by simp [hfr]
        exact absurd ⟨hthread, hsince, hkind⟩ (hfront' e hin).2
  · cases mid with
    | nil => exact absurd (List.cons.inj hmid).1 (Ne.symm hne)
    | cons x mid =>
        obtain ⟨rfl, -⟩ := List.cons.inj hmid
        exact ⟨e', by simp [hfr], he'⟩

theorem Announcing.before_call (h : Announcing s) (hk : s.winner = some k)
    {front rest : List Pushed} {e : Pushed} (hlog : s.log = front ++ e :: rest)
    (hthread : e.thread = k) (hsince : e.since = true) (hkind : e.kind = EVENT_CALL) :
    ∃ x ∈ front, x.kind = EVENT_MODULE_LOAD := by
  rcases h.after k hk with ⟨c, hc, hwon⟩ | hordered
  · have hnone := ((h.callers k c hc).won hwon).2.2
    exact absurd ⟨e, by simp [hlog], hthread, hsince, hkind⟩ hnone
  · exact hordered.before_call hlog hthread hsince hkind

theorem Announcing.count_le_one (h : Announcing s) :
    s.log.countP (fun e => e.kind == EVENT_MODULE_LOAD) ≤ 1 := by
  cases hw : s.winner with
  | none =>
      rw [count_of_not_announced (h.before hw)]
      exact Nat.zero_le 1
  | some k =>
      rcases h.after k hw with ⟨c, hc, hwon⟩ | hordered
      · rw [count_of_not_announced ((h.callers k c hc).won hwon).2.1]
        exact Nat.zero_le 1
      · exact hordered.count.le

/-- The next access of a thread that has changed the phase pushes the announcement. -/
theorem announced_next {regs : Option (ℕ → UInt64)} (hk : s.callers[k]? = some c)
    (hwon : c.stage.isWon = true) (hok : Announces (.next k regs) s) :
    ∃ t, Session.step (.next k regs) s = some t ∧ t.Announced := by
  have hroom := (hok c hk).1 hwon
  cases hstage : c.stage with
  | won callee frameBase =>
      refine ⟨_, by simp only [Session.step, Session.next, hk, hstage]; rfl, ?_⟩
      unfold Session.push
      dsimp only
      rw [if_pos hroom]
      exact ⟨_, List.mem_append_right _ (List.mem_singleton_self _), kind_moduleLoadOp ..⟩
  | _ => simp [hstage, CallStage.isWon] at hwon

/-- In every run whose announcement finds room, the thread that makes it pushes no CALL
before it, it is never pushed twice, and once a call has come to its end it has been
pushed or is the next access of the thread that changed the phase. -/
theorem module_load_once (h : Reach Session.step Announces {} s) :
    (∀ k, s.winner = some k → ∀ front e rest, s.log = front ++ e :: rest → e.thread = k →
      e.since = true → e.kind = EVENT_CALL → ∃ x ∈ front, x.kind = EVENT_MODULE_LOAD) ∧
    s.log.countP (fun e => e.kind == EVENT_MODULE_LOAD) ≤ 1 ∧
    ((∃ c ∈ s.callers, 0 < c.calls) → s.Announced ∨
      ∃ k c, s.callers[k]? = some c ∧ c.stage.isWon = true ∧ ∀ regs,
        Announces (.next k regs) s → ∃ t, Session.step (.next k regs) s = some t ∧
          t.Announced) := by
  have hinv := Announcing.run h
  refine ⟨fun k hk front e rest => hinv.before_call hk, hinv.count_le_one, ?_⟩
  rintro ⟨c, hc, hcalls⟩
  obtain ⟨j, hj⟩ := List.mem_iff_getElem?.mp hc
  have htwo := (hinv.callers j c hj).counted hcalls
  obtain ⟨k, hk⟩ := Option.isSome_iff_exists.mp (hinv.phase.mp htwo)
  rcases hinv.after k hk with ⟨x, hx, hwon⟩ | ⟨front, e, rest, hlog, he, -⟩
  · exact .inr ⟨k, x, hx, hwon, fun regs hok => announced_next hx hwon hok⟩
  · exact .inl ⟨e, by simp [hlog], he⟩

/-- The phase is 2, but nothing was announced and no thread is about to. -/
structure Lost (s : Session) : Prop where
  phase : s.phase = 2
  callers : ∀ c ∈ s.callers, c.stage.isWon = false
  log : ¬s.Announced

theorem Lost.move (h : Lost s) (hcallers : t.callers = s.callers.set k c')
    (hlog : t.log = s.log ++ q) (hphase : t.phase = s.phase)
    (hnew : ∀ e ∈ q, e.kind ≠ EVENT_MODULE_LOAD) (hwon : c'.stage.isWon = false) : Lost t where
  phase := hphase.trans h.phase
  callers := by
    intro x hx
    rw [hcallers] at hx
    rcases List.mem_or_eq_of_mem_set hx with hx | rfl
    · exact h.callers x hx
    · exact hwon
  log := by
    rw [announced_append hlog hnew]
    exact h.log

theorem Lost.turn (h : Lost s) (hwon : c'.stage.isWon = false) : Lost (s.withCaller k c') :=
  h.move rfl (List.append_nil s.log).symm rfl (by simp) hwon

theorem Lost.push (h : Lost s) {op : Op} (hwon : c.stage.isWon = false)
    (hkind : (⟨k, op, s.phase != 0⟩ : Pushed).kind ≠ EVENT_MODULE_LOAD) : Lost (s.push k c op) := by
  obtain ⟨c', q, hcallers, hlog, hphase, -, hstage, -, -, hnew⟩ := log_push (s := s) (k := k) c op
  exact h.move hcallers hlog hphase (fun e he => hnew e he ▸ hkind) (hstage ▸ hwon)

theorem Lost.next {regs : Option (ℕ → UInt64)} (h : Lost s) (hs : s.next k regs = some t) :
    Lost t := by
  have htwo : ¬s.phase = 1 := by simp [h.phase]
  unfold Session.next at hs
  split at hs
  · cases hs
  · rename_i c hk
    have hnot := h.callers c (List.mem_of_getElem? hk)
    split at hs
    · cases hs
    · obtain rfl := Option.some.inj hs
      exact h.turn (by rw [if_neg htwo]; rfl)
    · rw [if_neg htwo] at hs
      obtain rfl := Option.some.inj hs
      exact h.turn rfl
    · rename_i callee frameBase hstage
      rw [hstage] at hnot
      cases hnot
    · obtain rfl := Option.some.inj hs
      exact h.push rfl (by rw [kind_callOp]; decide)
    · have hcount : Lost { s with insnCounter := s.insnCounter + 8 } := ⟨h.phase, h.callers, h.log⟩
      dsimp only at hs
      split at hs
      · obtain rfl := Option.some.inj hs
        exact hcount.turn rfl
      · obtain rfl := Option.some.inj hs
        exact hcount.push rfl (by rw [kind_snapshotOp]; decide)

theorem Lost.step {l : CallLabel} (h : Lost s) (hs : Session.step l s = some t) : Lost t := by
  cases l with
  | thread capacity tid =>
      obtain rfl := Option.some.inj hs
      refine ⟨h.phase, fun c hc => ?_, h.log⟩
      rcases List.mem_append.mp hc with hc | hc
      · exact h.callers c hc
      · rw [List.mem_singleton.mp hc]
        rfl
  | moduleLoad base =>
      obtain rfl := Option.some.inj hs
      rw [if_neg (by simp [h.phase])]
      exact h
  | enter k callee frameBase =>
      obtain ⟨c, hk, hs⟩ := Option.bind_eq_some_iff.mp hs
      split at hs
      · obtain rfl := Option.some.inj hs
        exact h.turn rfl
      · cases hs
  | next k regs => exact h.next hs
  | emit k n | consume k n =>
      obtain ⟨c, hk, hs⟩ := Option.bind_eq_some_iff.mp hs
      split at hs
      · obtain rfl := Option.some.inj hs
        exact h.turn (h.callers c (List.mem_of_getElem? hk))
      · cases hs

/-- An announcement that was refused is never made up for. -/
theorem Lost.run (h : Lost s) (hrun : Reach Session.step (fun _ _ => True) s t) : Lost t :=
  hrun.invariant h fun _ _ _ hu _ hs => hu.step hs

end Move

/-- The program is loaded and a thread makes its first call. -/
def firstCall : List CallLabel :=
  [.thread THREAD_RING_CAPACITY 0, .moduleLoad 0x555555554000, .enter 0 0x555555555000 0x7ffff000] ++
    List.replicate 5 (.next 0 none)

theorem first_call_announces : ∃ s, Reach Session.step Announces {} s ∧
    s.log.map Pushed.kind = [EVENT_MODULE_LOAD, EVENT_CALL] ∧
    s.log.countP (fun e => e.kind == EVENT_MODULE_LOAD) ≤ 1 := by
  have hrun : (Transition.exec (guarded Session.step Announces) firstCall {}).any (fun s =>
      s.log.map Pushed.kind = [EVENT_MODULE_LOAD, EVENT_CALL]) = true := by
    decide +kernel
  obtain ⟨s, hs, hlog⟩ := (Option.any_eq_true _ _).mp hrun
  exact ⟨s, .of_guarded hs, of_decide_eq_true hlog, (module_load_once (.of_guarded hs)).2.1⟩

/-- The ring is full when the thread that changed the phase announces the module, and
has room again at its CALL. -/
def lostAnnouncement : List CallLabel :=
  [.thread THREAD_RING_CAPACITY 0, .moduleLoad 0x555555554000, .emit 0 (2 ^ 20),
    .enter 0 0x555555555000 0x7ffff000, .next 0 none, .next 0 none, .next 0 none,
    .consume 0 4096, .next 0 none, .next 0 none]

/-- The thread's CALL is there without the announcement, which no later call makes. -/
theorem announcement_is_lost : ∃ s, Transition.exec Session.step lostAnnouncement {} = some s ∧
    s.winner = some 0 ∧
    s.log.map (fun e => (e.thread, e.kind, e.since)) = [(0, EVENT_CALL, true)] ∧
    s.callers.map Caller.calls = [1] ∧
    ∀ t, Reach Session.step (fun _ _ => True) s t → ¬t.Announced := by
  have hrun : (Transition.exec Session.step lostAnnouncement {}).any (fun s => s.winner = some 0 &&
      s.phase = 2 && s.log.map (fun e => (e.thread, e.kind, e.since)) = [(0, EVENT_CALL, true)] &&
      s.callers.map Caller.calls = [1] && s.callers.all fun c => !c.stage.isWon) = true := by
    decide +kernel
  obtain ⟨s, hs, hfacts⟩ := (Option.any_eq_true _ _).mp hrun
  simp only [Bool.and_eq_true, decide_eq_true_eq] at hfacts
  obtain ⟨⟨⟨⟨hwinner, htwo⟩, hlog⟩, hcalls⟩, hwon⟩ := hfacts
  refine ⟨s, hs, hwinner, hlog, hcalls, fun t ht => ?_⟩
  have hlost : Lost s := by
    refine ⟨htwo, fun c hc => by simpa using List.all_eq_true.mp hwon c hc, ?_⟩
    rintro ⟨e, he, hkind⟩
    have hmem := List.mem_map_of_mem (f := fun e : Pushed => (e.thread, e.kind, e.since)) he
    rw [hlog, List.mem_singleton, hkind] at hmem
    exact absurd (congrArg (fun x => x.2.1) hmem) (show ¬EVENT_MODULE_LOAD = EVENT_CALL by decide)
  exact (hlost.run ht).log

end Rtmap.Tracer
