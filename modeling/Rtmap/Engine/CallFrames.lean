import Rtmap.Engine.Steps

/-!
# Shadow stacks and the frames in the index

CALL pushes a frame for a known function only, RETURN pops whatever is on top.
A run is watched with the calls each thread has not returned from and the thread
each frame was pushed for.
-/
namespace Rtmap.Engine
open Rtmap.Ring Transition

/-- A CALL not yet returned from: the frame it pushed, and the thread's frames
and indexed locals just before it. -/
structure Call where
  frame : Option ShadowFrame
  frames : List ShadowFrame
  held : FrameId → Option (List Interval)

/-- The engine with the outstanding calls of each thread and the owners of frames. -/
structure Watch where
  state : State
  calls : UInt16 → List Call := fun _ => []
  owner : FrameId → Option UInt16 := fun _ => none

namespace Watch

/-- The thread's frames that the index holds, with their intervals. -/
def held (w : Watch) (tid : UInt16) : FrameId → Option (List Interval) := fun fid =>
  if w.owner fid = some tid then w.state.addrIndex.frame fid else none

/-- The frame a CALL pushes. -/
def pushed (w : Watch) (ev : Event) : Option ShadowFrame :=
  (w.state.callee ev.addr).map fun f => ⟨w.state.nextFrameId, ev.addr, f.name⟩

def calling (w : Watch) (ev : Event) : Call where
  frame := w.pushed ev
  frames := w.state.framesOf ev.threadId
  held := w.held ev.threadId

/-- The state after an input, with the calls and owners brought up to date. -/
def next (i : Input) (w : Watch) : Watch :=
  let w' := { w with state := i.apply w.state }
  match i with
  | .event _ ev =>
      if kindOf ev = .call then
        { w' with
          calls := Function.update w.calls ev.threadId (w.calling ev :: w.calls ev.threadId)
          owner :=
            if (w.pushed ev).isSome then
              Function.update w.owner w.state.nextFrameId (some ev.threadId)
            else w.owner }
      else if kindOf ev = .ret then
        { w' with calls := Function.update w.calls ev.threadId (w.calls ev.threadId).tail }
      else w'
  | _ => w'

def step (i : Input) (w : Watch) : Option Watch := some (w.next i)

end Watch

/-- The next module load relocates the index. -/
def State.unrelocated (s : State) : Prop := s.relocationDelta = none ∧ s.dwarfInfo.isSome

/-- The thread returns from its own calls only, it calls an unknown function only
while it has no frame, and the index is not relocated while it holds a frame
that the thread will return to. -/
def Framed (tid : UInt16) : Input → Watch → Prop
  | .event _ ev, w =>
      (kindOf ev = .ret → ev.threadId = tid → w.calls tid ≠ []) ∧
      (kindOf ev = .call → ev.threadId = tid →
        (w.state.callee ev.addr).isSome ∨ w.state.framesOf tid = []) ∧
      (kindOf ev = .moduleLoad → w.state.unrelocated →
        ∀ f ∈ (w.state.framesOf tid).tail, w.held tid f.frameId = none)
  | _, _ => True

/-- An engine that has processed no call. -/
structure State.Uncalled (s : State) : Prop where
  threadStacks : ∀ tid, s.threadStacks tid = none
  dynamics : s.addrIndex.dynamics = []

section Specs
variable {host : Host} {ev : Event} {s : State}

/-- What of the state the frames live in. -/
structure FrameView where
  threadStacks : UInt16 → Option ShadowStack
  nextFrameId : FrameId
  dynamics : List (FrameId × List Interval)

def State.frameView (s : State) : FrameView := ⟨s.threadStacks, s.nextFrameId, s.addrIndex.dynamics⟩

def Kept.frameView (k : Kept) : FrameView := ⟨k.threadStacks, k.nextFrameId, k.dynamics⟩

/-- Only CALL, RETURN and a relocating MODULE_LOAD move frames. -/
theorem frameView_other (hcall : kindOf ev ≠ .call) (hreturn : kindOf ev ≠ .ret)
    (hload : kindOf ev = .moduleLoad → ¬s.unrelocated) :
    (processKind host ev s).frameView = s.frameView := by
  rw [processKind]
  cases hkind : kindOf ev with
  | write => exact (congrArg Kept.frameView (fixed_processWrite host ev s) :)
  | call => exact absurd hkind hcall
  | ret => exact absurd hkind hreturn
  | alloc => exact (congrArg Kept.frameView (kept_processAlloc host ev s) :)
  | free => exact (congrArg Kept.frameView (kept_processFree ev s) :)
  | cacheMiss => simp only [State.frameView, AddressIndex.lookup_dynamics]
  | moduleLoad =>
      have hnot := hload hkind
      dsimp only [processModuleLoad]
      split
      · rename_i hdelta hinfo
        exact absurd ⟨hdelta, by simp [hinfo]⟩ hnot
      · rfl
  | _ => rfl

theorem framesOf_of_frameView {s t : State} (h : t.frameView = s.frameView) (tid : UInt16) :
    t.framesOf tid = s.framesOf tid := by
  simp only [State.framesOf, show t.threadStacks = s.threadStacks from congrArg (·.threadStacks) h]

theorem frame_of_frameView {s t : State} (h : t.frameView = s.frameView) (fid : FrameId) :
    t.addrIndex.frame fid = s.addrIndex.frame fid := by
  simp only [AddressIndex.frame,
    show t.addrIndex.dynamics = s.addrIndex.dynamics from congrArg (·.dynamics) h]

/-- A CALL to an unknown function moves no frame. -/
theorem frameView_call_unknown (h : s.callee ev.addr = none) :
    (processCall host ev s).frameView = s.frameView := by
  simp only [processCall]
  split
  · rename_i f hf
    rw [show s.callee ev.addr = some f from hf] at h
    cases h
  · rfl

/-- A CALL to a known function pushes its frame and files its locals under a new id. -/
theorem call_spec (host : Host) {f : FunctionMeta} (h : s.callee ev.addr = some f) :
    (∀ tid, (processCall host ev s).framesOf tid =
      if tid = ev.threadId then ⟨s.nextFrameId, ev.addr, f.name⟩ :: s.framesOf tid
      else s.framesOf tid) ∧
    (processCall host ev s).nextFrameId = s.nextFrameId + 1 ∧
    ∀ fid, fid ≠ s.nextFrameId →
      (processCall host ev s).addrIndex.frame fid = s.addrIndex.frame fid := by
  simp only [processCall]
  split
  · rename_i g hg
    obtain rfl : g = f := Option.some.inj (hg.symm.trans h)
    refine ⟨fun tid => ?_, rfl, fun fid hfid => ?_⟩
    · simp only [Call.enter, State.framesOf, State.withRegs, Function.update_apply]
      split
      · rename_i htid
        subst htid
        cases s.threadStacks ev.threadId <;> simp [ShadowStack.pushCall]
      · rfl
    · simp only [Call.enter]
      split
      · rfl
      · rw [AddressIndex.frame_insertFrameLocals, if_neg (by simp [State.withRegs, hfid])]
        rfl
  · rename_i hnone
    rw [show s.callee ev.addr = none from hnone] at h
    cases h

/-- A RETURN takes the top frame off the stack and out of the index. -/
theorem return_spec (ev : Event) (s : State) :
    (∀ tid, (processReturn ev s).framesOf tid =
      if tid = ev.threadId then (s.framesOf tid).tail else s.framesOf tid) ∧
    (processReturn ev s).nextFrameId = s.nextFrameId ∧
    ∀ fid, (processReturn ev s).addrIndex.frame fid =
      if (s.framesOf ev.threadId).head?.map ShadowFrame.frameId = some fid then none
      else s.addrIndex.frame fid := by
  have hretire (fid : FrameId) (t : State) : (retireFrame fid t).frameView = t.frameView := by
    rw [retireFrame]
    split
    · split <;> rfl
    · rfl
  simp only [processReturn]
  split
  · rename_i hnone
    have hempty : s.framesOf ev.threadId = [] := by
      rw [State.framesOf, show s.threadStacks ev.threadId = none from hnone]
      rfl
    refine ⟨fun tid => ?_, rfl, fun fid => ?_⟩
    · split
      · rename_i htid
        subst htid
        rw [hempty]
        exact hempty
      · rfl
    · rw [hempty]
      rfl
  · rename_i stack hstack
    have hframes : s.framesOf ev.threadId = stack.frames := by
      rw [State.framesOf, show s.threadStacks ev.threadId = some stack from hstack]
      rfl
    have hmoved (st : ShadowStack) (tid : UInt16) (t : State)
        (ht : t.threadStacks = Function.update s.threadStacks ev.threadId (some st)) :
        t.framesOf tid = if tid = ev.threadId then st.frames else s.framesOf tid := by
      simp only [State.framesOf, ht, Function.update_apply]
      split <;> rfl
    rw [hframes]
    cases hcons : stack.frames with
    | nil =>
        rw [ShadowStack.popReturn_nil hcons]
        refine ⟨fun tid => ?_, rfl, fun _ => rfl⟩
        rw [hmoved _ tid _ rfl]
        split
        · rename_i htid
          rw [htid, hframes, hcons]
          rfl
        · rfl
    | cons f rest =>
        rw [ShadowStack.popReturn_cons hcons]
        refine ⟨fun tid => ?_, congrArg (·.nextFrameId) (hretire _ _), fun fid => ?_⟩
        · rw [framesOf_of_frameView (hretire _ _), hmoved _ tid _ rfl]
          split
          · rename_i htid
            rw [htid, hframes, hcons]
            rfl
          · rfl
        · rw [frame_of_frameView (hretire _ _)]
          simp only [AddressIndex.frame_removeFrame, List.head?_cons, Option.map_some,
            Option.some.injEq, eq_comm]
          rfl

/-- A relocating MODULE_LOAD leaves the stacks and empties the frames of the index. -/
theorem load_spec (host : Host) (ev : Event) (h : s.unrelocated) :
    (∀ tid, (processModuleLoad host ev s).framesOf tid = s.framesOf tid) ∧
    (processModuleLoad host ev s).nextFrameId = s.nextFrameId ∧
    ∀ fid, (processModuleLoad host ev s).addrIndex.frame fid = none := by
  simp only [processModuleLoad]
  split
  · refine ⟨fun _ => rfl, rfl, fun fid => ?_⟩
    simp only [AddressIndex.frame, populateGlobals_dynamics]
    rfl
  · rename_i hnone
    obtain ⟨hdelta, hinfo⟩ := h
    obtain ⟨info, hinfo⟩ := Option.isSome_iff_exists.mp hinfo
    exact absurd hinfo (hnone info hdelta)

end Specs

/-- The thread's frames are those its outstanding calls pushed, each call on top
of the frames it found; a call that pushed none found none. -/
def Stacked : List Call → List ShadowFrame → Prop
  | [], frames => frames = []
  | c :: calls, frames =>
      (match c.frame with
        | some f => frames = f :: c.frames
        | none => frames = [] ∧ c.frames = []) ∧ Stacked calls c.frames

/-- The index holds frames of the thread's stack only, and still holds below each
outstanding call what it held when the call was made. -/
def Holding : List Call → List ShadowFrame → (FrameId → Option (List Interval)) → Prop
  | calls, frames, held =>
      (∀ fid, held fid ≠ none → ∃ f ∈ frames, f.frameId = fid) ∧
      match calls with
      | [] => True
      | c :: calls => (∀ f ∈ c.frames, held f.frameId = c.held f.frameId) ∧
          Holding calls c.frames c.held

theorem Holding.only {calls : List Call} {frames : List ShadowFrame}
    {held : FrameId → Option (List Interval)} (h : Holding calls frames held) :
    ∀ fid, held fid ≠ none → ∃ f ∈ frames, f.frameId = fid := by
  cases calls with
  | nil => exact h.1
  | cons c calls => exact h.1

theorem frames_of_stacked {calls : List Call} {frames : List ShadowFrame}
    (h : Stacked calls frames) : frames = calls.filterMap Call.frame := by
  induction calls generalizing frames with
  | nil => exact h
  | cons c calls ih =>
      obtain ⟨htop, hrest⟩ := h
      have hbelow := ih hrest
      cases hc : c.frame with
      | some f =>
          rw [hc] at htop
          simp only [List.filterMap_cons, hc, ← hbelow]
          exact htop
      | none =>
          rw [hc] at htop
          simp only [List.filterMap_cons, hc, ← hbelow]
          exact htop.1.trans htop.2.symm

/-- The invariant of a thread's frames. Frame numbers grow, and each frame and
each number given out has one owner, whatever the other threads do. -/
structure FramesInv (tid : UInt16) (w : Watch) : Prop where
  stacked : Stacked (w.calls tid) (w.state.framesOf tid)
  holding : Holding (w.calls tid) (w.state.framesOf tid) (w.held tid)
  below : ∀ t, ∀ f ∈ w.state.framesOf t, f.frameId < w.state.nextFrameId
  given : ∀ fid, w.owner fid ≠ none → fid < w.state.nextFrameId
  owned : ∀ t, ∀ f ∈ w.state.framesOf t, w.owner f.frameId = some t
  decreasing : (w.state.framesOf tid).Pairwise fun a b => b.frameId < a.frameId

namespace FramesInv
variable {tid : UInt16} {w w' : Watch}

/-- A step that moves no frame of the thread, gives out no number and takes no
bundle of the thread out of the index. -/
theorem still (h : FramesInv tid w) (hcalls : w'.calls tid = w.calls tid)
    (hframes : w'.state.framesOf tid = w.state.framesOf tid) (hheld : w'.held tid = w.held tid)
    (hbelow : ∀ t, ∀ f ∈ w'.state.framesOf t, f.frameId < w'.state.nextFrameId)
    (hgiven : ∀ fid, w'.owner fid ≠ none → fid < w'.state.nextFrameId)
    (howned : ∀ t, ∀ f ∈ w'.state.framesOf t, w'.owner f.frameId = some t) :
    FramesInv tid w' where
  stacked := by rw [hcalls, hframes]; exact h.stacked
  holding := by rw [hcalls, hframes, hheld]; exact h.holding
  below := hbelow
  given := hgiven
  owned := howned
  decreasing := by rw [hframes]; exact h.decreasing

theorem held_of_frameView (hview : w'.state.frameView = w.state.frameView)
    (howner : w'.owner = w.owner) (t : UInt16) : w'.held t = w.held t := by
  funext fid
  simp only [Watch.held, howner, frame_of_frameView hview]

/-- A step that keeps the frame view. -/
theorem unmoved (h : FramesInv tid w) (hview : w'.state.frameView = w.state.frameView)
    (howner : w'.owner = w.owner) (hcalls : w'.calls tid = w.calls tid) : FramesInv tid w' := by
  have hnext : w'.state.nextFrameId = w.state.nextFrameId := congrArg (·.nextFrameId) hview
  refine h.still hcalls (framesOf_of_frameView hview tid) (held_of_frameView hview howner tid)
    (fun t f hf => ?_) (fun fid hfid => ?_) (fun t f hf => ?_)
  · rw [framesOf_of_frameView hview] at hf
    rw [hnext]
    exact h.below t f hf
  · rw [howner] at hfid
    rw [hnext]
    exact h.given fid hfid
  · rw [framesOf_of_frameView hview] at hf
    rw [howner]
    exact h.owned t f hf

section Moves
variable {host : Host} {ev : Event}

/-- A CALL to a known function, by this thread or another. -/
theorem call_known (h : FramesInv tid w) {f : FunctionMeta} (hf : w.state.callee ev.addr = some f)
    (hstate : w'.state = processCall host ev (countEvent w.state))
    (hcalls : w'.calls = Function.update w.calls ev.threadId (w.calling ev :: w.calls ev.threadId))
    (howner : w'.owner = Function.update w.owner w.state.nextFrameId (some ev.threadId)) :
    FramesInv tid w' := by
  obtain ⟨hframes, hnext, hindex⟩ :=
    call_spec host (s := countEvent w.state) hf
  rw [← hstate] at hframes hnext hindex
  have hunowned : w.owner w.state.nextFrameId = none := by
    by_contra hne
    exact absurd (h.given _ hne) (Nat.lt_irrefl _)
  have hheld : ∀ t fid, fid ≠ w.state.nextFrameId → w'.held t fid = w.held t fid := by
    intro t fid hfid
    simp only [Watch.held, howner, Function.update_of_ne hfid, hindex fid hfid]
    rfl
  have hbelow : ∀ t, ∀ g ∈ w'.state.framesOf t, g.frameId < w'.state.nextFrameId := by
    intro t g hg
    rw [hframes] at hg
    rw [hnext]
    split at hg
    · rcases List.mem_cons.mp hg with rfl | hg
      · exact Nat.lt_succ_self _
      · exact Nat.lt_succ_of_lt (h.below t g hg)
    · exact Nat.lt_succ_of_lt (h.below t g hg)
  have hgiven : ∀ fid, w'.owner fid ≠ none → fid < w'.state.nextFrameId := by
    intro fid hfid
    rw [hnext]
    by_cases hk : fid = w.state.nextFrameId
    · exact hk ▸ Nat.lt_succ_self _
    · rw [howner, Function.update_of_ne hk] at hfid
      exact Nat.lt_succ_of_lt (h.given fid hfid)
  have howned : ∀ t, ∀ g ∈ w'.state.framesOf t, w'.owner g.frameId = some t := by
    intro t g hg
    have hold : g ∈ w.state.framesOf t → w'.owner g.frameId = some t := fun hmem => by
      rw [howner, Function.update_of_ne (Nat.ne_of_lt (h.below t g hmem))]
      exact h.owned t g hmem
    rw [hframes] at hg
    split at hg
    · rename_i ht
      rcases List.mem_cons.mp hg with rfl | hg
      · rw [howner, ht]
        exact Function.update_self ..
      · exact hold hg
    · exact hold hg
  by_cases htid : tid = ev.threadId
  · subst htid
    have htop : w'.calls ev.threadId = w.calling ev :: w.calls ev.threadId := by
      rw [hcalls]
      exact Function.update_self ..
    have hpushed : w.pushed ev = some ⟨w.state.nextFrameId, ev.addr, f.name⟩ := by
      rw [Watch.pushed, hf]
      rfl
    have hstack : w'.state.framesOf ev.threadId =
        ⟨w.state.nextFrameId, ev.addr, f.name⟩ :: w.state.framesOf ev.threadId := by
      rw [hframes, if_pos rfl]
      rfl
    refine ⟨?_, ?_, hbelow, hgiven, howned, ?_⟩
    · rw [htop, hstack]
      simp only [Stacked, Watch.calling, hpushed, true_and]
      exact h.stacked
    · rw [htop, hstack, Holding]
      refine ⟨fun fid hfid => ?_, fun g hg => ?_, h.holding⟩
      · by_cases hk : fid = w.state.nextFrameId
        · exact ⟨_, List.mem_cons_self, hk.symm⟩
        · rw [hheld _ _ hk] at hfid
          obtain ⟨g, hg, hid⟩ := h.holding.only fid hfid
          exact ⟨g, List.mem_cons_of_mem _ hg, hid⟩
      · exact hheld _ _ (Nat.ne_of_lt (h.below _ g hg))
    · rw [hstack]
      exact List.pairwise_cons.mpr ⟨fun g hg => h.below _ g hg, h.decreasing⟩
  · have hsame : w'.held tid = w.held tid := by
      funext fid
      by_cases hk : fid = w.state.nextFrameId
      · have hev : ¬(some ev.threadId = some tid) := fun he => htid (Option.some.inj he).symm
        simp only [Watch.held, hk, howner, Function.update_self, hunowned, if_neg hev,
          reduceCtorEq, if_false]
      · exact hheld _ _ hk
    refine h.still ?_ ?_ hsame hbelow hgiven howned
    · rw [hcalls]
      exact Function.update_of_ne htid ..
    · rw [hframes, if_neg htid]
      rfl

/-- A CALL to an unknown function, by this thread while it has no frame. -/
theorem call_unknown (h : FramesInv tid w) (hempty : w.state.framesOf tid = [])
    (hview : w'.state.frameView = w.state.frameView) (howner : w'.owner = w.owner)
    (hpushed : w.pushed ev = none) (htid : ev.threadId = tid)
    (hcalls : w'.calls tid = w.calling ev :: w.calls tid) : FramesInv tid w' := by
  subst htid
  have hquiet : FramesInv ev.threadId { w' with calls := w.calls } := h.unmoved hview howner rfl
  have hframes := framesOf_of_frameView hview ev.threadId
  refine ⟨?_, ?_, hquiet.below, hquiet.given, hquiet.owned, hquiet.decreasing⟩
  · rw [hcalls, hframes]
    simp only [Stacked, Watch.calling, hpushed, hempty, true_and]
    rw [← hempty]
    exact h.stacked
  · rw [hcalls, hframes, held_of_frameView hview howner, Holding]
    exact ⟨h.holding.only, fun _ _ => rfl, h.holding⟩

/-- What the thread's RETURN restores. -/
theorem returned (h : FramesInv tid w) {c : Call} {calls : List Call} (hc : w.calls tid = c :: calls)
    (hstate : w'.state = processReturn ev (countEvent w.state)) (htid : ev.threadId = tid)
    (howner : w'.owner = w.owner) :
    w'.state.framesOf tid = c.frames ∧ w'.held tid = c.held := by
  obtain ⟨hframes, -, hindex⟩ := return_spec ev (countEvent w.state)
  rw [← hstate] at hframes hindex
  subst htid
  have hstacked := h.stacked
  have hholding := h.holding
  rw [hc] at hstacked hholding
  obtain ⟨htop, -⟩ := hstacked
  obtain ⟨honly, hbelow, hrest⟩ := hholding
  have honly' := hrest.only
  have htail : w'.state.framesOf ev.threadId = (w.state.framesOf ev.threadId).tail := by
    rw [hframes, if_pos rfl]
    rfl
  have hindex' : ∀ fid, w'.state.addrIndex.frame fid =
      if (w.state.framesOf ev.threadId).head?.map ShadowFrame.frameId = some fid then none
      else w.state.addrIndex.frame fid := hindex
  cases hframe : c.frame with
  | none =>
      rw [hframe] at htop
      obtain ⟨hempty, hnone⟩ := htop
      refine ⟨by rw [htail, hempty, hnone]; rfl, ?_⟩
      funext fid
      have hsame : w'.held ev.threadId fid = w.held ev.threadId fid := by
        simp [Watch.held, howner, hindex', hempty]
      have hleft : w.held ev.threadId fid = none := by
        by_contra hne
        obtain ⟨f, hf, -⟩ := honly fid hne
        rw [hempty] at hf
        cases hf
      have hright : c.held fid = none := by
        by_contra hne
        obtain ⟨f, hf, -⟩ := honly' fid hne
        rw [hnone] at hf
        cases hf
      rw [hsame, hleft, hright]
  | some f =>
      rw [hframe] at htop
      have hcons : w.state.framesOf ev.threadId = f :: c.frames := htop
      have hdecreasing := h.decreasing
      rw [hcons] at hdecreasing honly
      refine ⟨by rw [htail, hcons]; rfl, ?_⟩
      funext fid
      have hpop : w'.held ev.threadId fid = if f.frameId = fid then none
          else w.held ev.threadId fid := by
        simp only [Watch.held, howner, hindex', hcons, List.head?_cons, Option.map_some,
          Option.some.injEq]
        split <;> split <;> rfl
      rw [hpop]
      have habove : ∀ g ∈ c.frames, g.frameId ≠ f.frameId := fun g hg =>
        Nat.ne_of_lt ((List.pairwise_cons.mp hdecreasing).1 g hg)
      by_cases hin : ∃ g ∈ c.frames, g.frameId = fid
      · obtain ⟨g, hg, rfl⟩ := hin
        rw [if_neg (Ne.symm (habove g hg))]
        exact hbelow g hg
      · have hright : c.held fid = none := by
          by_contra hne
          exact hin (honly' fid hne)
        rw [hright]
        split
        · rfl
        · rename_i hne
          by_contra hheld
          obtain ⟨g, hg, hid⟩ := honly fid hheld
          rcases List.mem_cons.mp hg with rfl | hg
          · exact hne hid
          · exact hin ⟨g, hg, hid⟩

/-- A RETURN of this thread, from an outstanding call, or of another. -/
theorem ret (h : FramesInv tid w) (hown : ev.threadId = tid → w.calls tid ≠ [])
    (hstate : w'.state = processReturn ev (countEvent w.state))
    (hcalls : w'.calls = Function.update w.calls ev.threadId (w.calls ev.threadId).tail)
    (howner : w'.owner = w.owner) : FramesInv tid w' := by
  obtain ⟨hframes, hnext, hindex⟩ := return_spec ev (countEvent w.state)
  rw [← hstate] at hframes hnext hindex
  have hmem : ∀ t, ∀ f ∈ w'.state.framesOf t, f ∈ w.state.framesOf t := by
    intro t f hf
    rw [hframes] at hf
    split at hf
    · exact List.mem_of_mem_tail hf
    · exact hf
  have hbelow : ∀ t, ∀ f ∈ w'.state.framesOf t, f.frameId < w'.state.nextFrameId := fun t f hf => by
    rw [hnext]
    exact h.below t f (hmem t f hf)
  have hgiven : ∀ fid, w'.owner fid ≠ none → fid < w'.state.nextFrameId := fun fid hfid => by
    rw [howner] at hfid
    rw [hnext]
    exact h.given fid hfid
  have howned : ∀ t, ∀ f ∈ w'.state.framesOf t, w'.owner f.frameId = some t := fun t f hf => by
    rw [howner]
    exact h.owned t f (hmem t f hf)
  by_cases htid : ev.threadId = tid
  · obtain ⟨c, calls, hc⟩ := List.exists_cons_of_ne_nil (hown htid)
    obtain ⟨hrestored, hheld⟩ := h.returned hc hstate htid howner
    have htail : w'.calls tid = calls := by
      rw [hcalls, htid, Function.update_self, hc]
      rfl
    have hstacked := h.stacked
    have hholding := h.holding
    rw [hc] at hstacked hholding
    refine ⟨?_, ?_, hbelow, hgiven, howned, ?_⟩
    · rw [htail, hrestored]
      exact hstacked.2
    · rw [htail, hrestored, hheld]
      exact hholding.2.2
    · rw [hframes]
      split
      · exact h.decreasing.tail
      · exact h.decreasing
  · have hne : tid ≠ ev.threadId := fun he => htid he.symm
    refine h.still ?_ ?_ ?_ hbelow hgiven howned
    · rw [hcalls, Function.update_of_ne hne]
    · rw [hframes, if_neg hne]
      rfl
    · funext fid
      simp only [Watch.held, howner, hindex]
      split
      · rename_i hfid
        split
        · rename_i hhead
          obtain ⟨f, hf, rfl⟩ := Option.map_eq_some_iff.mp hhead
          have hother := h.owned ev.threadId f (List.mem_of_mem_head? hf)
          rw [hfid] at hother
          exact absurd (Option.some.inj hother) hne
        · rfl
      · rfl

/-- A relocating MODULE_LOAD while the index holds no frame the thread returns to. -/
theorem load (h : FramesInv tid w) (hunrelocated : w.state.unrelocated)
    (hnone : ∀ f ∈ (w.state.framesOf tid).tail, w.held tid f.frameId = none)
    (hstate : w'.state = processModuleLoad host ev (countEvent w.state))
    (hcalls : w'.calls = w.calls) (howner : w'.owner = w.owner) : FramesInv tid w' := by
  obtain ⟨hframes, hnext, hindex⟩ :=
    load_spec host ev (s := countEvent w.state) hunrelocated
  rw [← hstate] at hframes hnext hindex
  have hheld : w'.held tid = fun _ => none := by
    funext fid
    simp only [Watch.held, hindex, ite_self]
  refine ⟨?_, ?_, fun t f hf => ?_, fun fid hfid => ?_, fun t f hf => ?_, ?_⟩
  · rw [hcalls, hframes]
    exact h.stacked
  · have hstacked := h.stacked
    have hholding := h.holding
    rw [hcalls, hframes, hheld]
    cases hc : w.calls tid with
    | nil => exact ⟨fun _ hne => absurd rfl hne, trivial⟩
    | cons c calls =>
        rw [hc] at hstacked hholding
        refine ⟨fun _ hne => absurd rfl hne, fun f hf => ?_, hholding.2.2⟩
        rw [← hholding.2.1 f hf]
        refine (hnone f ?_).symm
        cases hframe : c.frame with
        | none =>
            simp only [Stacked, hframe] at hstacked
            rw [hstacked.1.2] at hf
            cases hf
        | some g =>
            simp only [Stacked, hframe] at hstacked
            rw [hstacked.1]
            exact hf
  · rw [hframes] at hf
    rw [hnext]
    exact h.below t f hf
  · rw [howner] at hfid
    rw [hnext]
    exact h.given fid hfid
  · rw [hframes] at hf
    rw [howner]
    exact h.owned t f hf
  · rw [hframes]
    exact h.decreasing

end Moves

theorem start {s : State} (h : s.Uncalled) : FramesInv tid { state := s } := by
  have hframes (t : UInt16) : s.framesOf t = [] := by
    rw [State.framesOf, h.threadStacks]
    rfl
  refine ⟨?_, ?_, ?_, ?_, ?_, ?_⟩ <;> simp [hframes, Stacked, Holding, Watch.held]

/-- Inputs that are no events leave the frames. -/
theorem frameView_libraries (host : Host) (modtab : List Module) (s : State) :
    (populateLibGlobals host modtab s).1.frameView = s.frameView := by
  rw [populateLibGlobals]
  split
  · rfl
  · split
    · rfl
    · split
      · rfl
      · dsimp only [State.frameView]
        split
        · rw [AddressIndex.finalize_dynamics, populateLibs_dynamics]
        · rw [populateLibs_dynamics]

theorem next (h : FramesInv tid w) {i : Input} (hok : Framed tid i w) :
    FramesInv tid (w.next i) := by
  cases i with
  | event host ev =>
      obtain ⟨hreturn, hcall, hload⟩ := hok
      simp only [Watch.next]
      split
      · rename_i hkind
        have hstate : processEvent host ev w.state = processCall host ev (countEvent w.state) := by
          simp only [processEvent, processKind, hkind]
        cases hf : w.state.callee ev.addr with
        | some f => exact h.call_known hf hstate rfl (by simp [Watch.pushed, hf])
        | none =>
            have hpushed : w.pushed ev = none := by simp [Watch.pushed, hf]
            have hview : (processEvent host ev w.state).frameView = w.state.frameView := by
              rw [hstate]
              exact frameView_call_unknown (s := countEvent w.state) hf
            by_cases htid : ev.threadId = tid
            · have hempty : w.state.framesOf tid = [] := by
                simpa [hf] using hcall hkind htid
              refine h.call_unknown hempty hview (by simp [hpushed]) hpushed htid ?_
              rw [← htid]
              exact Function.update_self ..
            · refine h.unmoved hview (by simp [hpushed]) ?_
              exact Function.update_of_ne (fun he => htid he.symm) ..
      · rename_i hnotCall
        split
        · rename_i hkind
          have hstate : processEvent host ev w.state = processReturn ev (countEvent w.state) := by
            simp only [processEvent, processKind, hkind]
          exact h.ret (hreturn hkind) hstate rfl rfl
        · rename_i hnotReturn
          by_cases hload' : kindOf ev = .moduleLoad ∧ w.state.unrelocated
          · obtain ⟨hkind, hunrelocated⟩ := hload'
            have hstate : processEvent host ev w.state =
                processModuleLoad host ev (countEvent w.state) := by
              simp only [processEvent, processKind, hkind]
            exact h.load hunrelocated (hload hkind hunrelocated) hstate rfl rfl
          · exact h.unmoved (frameView_other (s := countEvent w.state) hnotCall hnotReturn
              fun hkind hunrelocated => hload' ⟨hkind, hunrelocated⟩) rfl rfl
  | snapshot u => exact h.unmoved rfl rfl rfl
  | libraries host modtab => exact h.unmoved (frameView_libraries host modtab w.state) rfl rfl

end FramesInv

/-- The thread's frames are the ones its outstanding calls pushed, and a RETURN
brings back the frames and the indexed locals from before the CALL it matches. -/
def Balanced (tid : UInt16) (w : Watch) : Prop :=
  w.state.framesOf tid = (w.calls tid).filterMap Call.frame ∧
  ∀ host ev c calls, kindOf ev = .ret → ev.threadId = tid → w.calls tid = c :: calls →
    (w.next (.event host ev)).state.framesOf tid = c.frames ∧
      (w.next (.event host ev)).held tid = c.held

/-- In every run that meets the condition at each step, returns undo calls. -/
theorem returns_undo_calls (tid : UInt16) {s : State} (hs : s.Uncalled) {w : Watch}
    (h : Reach Watch.step (Framed tid) { state := s } w) : Balanced tid w := by
  have hinv : FramesInv tid w := by
    refine h.invariant (.start hs) fun i u v hu hok hstep => ?_
    obtain rfl := Option.some.inj hstep
    exact hu.next hok
  refine ⟨frames_of_stacked hinv.stacked, fun host ev c calls hkind htid hc => ?_⟩
  have hnext : w.next (.event host ev) = { w with
      state := processReturn ev (countEvent w.state)
      calls := Function.update w.calls ev.threadId (w.calls ev.threadId).tail } := by
    simp [Watch.next, Input.apply, processEvent, processKind, hkind]
  rw [hnext]
  exact hinv.returned hc rfl htid rfl

section Runs

/-- A program with one function, at 0x1000, that has one local. -/
def oneFunction : State where
  dwarfInfo := some {
    functions := FunctionMap.empty.add {
      name := "main"
      lowPc := 0x1000
      highPc := 0x1100
      locals := [{ frameOffset := -8, name := "x", size := 8, typeInfo := { name := "long", byteSize := 8 } }] } }

def callMain : Input := .event Host.plain (plainEvent EVENT_CALL 0x1000 0x7000)
def callLibrary : Input := .event Host.plain (plainEvent EVENT_CALL 0x9000 0x6000)
def returnOnce : Input := .event Host.plain (plainEvent EVENT_RETURN 0x9004 0x6000)

theorem uncalled_oneFunction : oneFunction.Uncalled := ⟨fun _ => rfl, rfl⟩

/-- The known function is called: its return will bring back the empty stack. -/
theorem known_call_is_undone :
    Balanced 1 (Watch.next callMain { state := oneFunction }) := by
  have hok : Framed 1 callMain { state := oneFunction } := by
    refine ⟨?_, ?_, ?_⟩
    · exact fun hkind => absurd hkind (by decide)
    · exact fun _ _ => .inl (by decide +kernel)
    · exact fun hkind => absurd hkind (by decide)
  exact returns_undo_calls 1 uncalled_oneFunction (.next .start hok rfl)

/-- The thread returns from its own calls only. -/
def WellNested (tid : UInt16) : Input → Watch → Prop
  | .event _ ev, w => kindOf ev = .ret → ev.threadId = tid → w.calls tid ≠ []
  | _, _ => True

/-- The function calls one without DWARF data, which returns: its own frame is gone. -/
theorem unknown_callee_takes_caller_frame :
    ¬ ∀ tid s w, s.Uncalled → Reach Watch.step (WellNested tid) { state := s } w →
      Balanced tid w := by
  intro hall
  let inside := Watch.next callLibrary (Watch.next callMain { state := oneFunction })
  have hinside : Reach Watch.step (WellNested 1) { state := oneFunction } inside := by
    have hfirst : WellNested 1 callMain { state := oneFunction } := fun hkind =>
      absurd hkind (by decide)
    have hsecond : WellNested 1 callLibrary (Watch.next callMain { state := oneFunction }) :=
      fun hkind => absurd hkind (by decide)
    exact .next (.next .start hfirst rfl) hsecond rfl
  have houtstanding : (inside.calls 1).length = 2 := by decide +kernel
  have hreturns : WellNested 1 returnOnce inside := by
    intro _ _ hnil
    rw [hnil] at houtstanding
    cases houtstanding
  have hback : Reach Watch.step (WellNested 1) { state := oneFunction }
      (Watch.next returnOnce inside) := .next hinside hreturns rfl
  have hframes := (hall 1 oneFunction _ uncalled_oneFunction hback).1
  exact absurd hframes (by decide +kernel)

end Runs

end Rtmap.Engine
