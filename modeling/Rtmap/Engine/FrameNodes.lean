import Rtmap.Engine.CallFrames
import Rtmap.Engine.EdgeValues
import Rtmap.Lib.RingLog

/-!
# Frames, their nodes and the edges

The nodes of a frame's locals outlive its RETURN by 32 more returned frames, its
intervals in the index do not. `frames_and_edges_tidy` says what is left of a
frame after any run, and that no edge is left to a node that is gone.
-/
namespace Rtmap.Engine
open Rtmap.Ring Transition

/-- The frame is on some thread's stack. -/
def State.OnStack (s : State) (fid : FrameId) : Prop := ∃ tid, ∃ f ∈ s.framesOf tid, f.frameId = fid

/-- The frame that an input returns from. -/
def Input.returned : Input → State → Option FrameId
  | .event _ ev, s =>
      if kindOf ev = .ret then (s.framesOf ev.threadId).head?.map ShadowFrame.frameId else none
  | _, _ => none

/-- The frames returned from along a run, in their order. -/
def returnsOf : List Input → State → List FrameId
  | [], _ => []
  | i :: inputs, s => (i.returned s).toList ++ returnsOf inputs (i.apply s)

/-- Locals with a node belong to frames on a stack or among the last 32 returned, the
index holds frames on a stack only, and an edge that does not dangle joins two nodes. -/
structure Tidy (returned : List FrameId) (s : State) : Prop where
  locals : ∀ fid li, (s.world.nodes (.local fid li)).isSome →
    s.OnStack fid ∨ fid ∈ returned.rtake 32
  held : ∀ fid, (s.addrIndex.frame fid).isSome → s.OnStack fid
  edges : ∀ id e, s.world.edges id = some e → e.isDangling = false →
    (s.world.nodes e.source).isSome ∧ (s.world.nodes e.target).isSome

section Lookup

/-- A step of `pickBest`. -/
def pickStep {α : Type} (better : α → α → Bool) (best : Option α) (c : α) : Option α :=
  match best with
  | none => some c
  | some b => if better c b then some c else some b

theorem pickBest_mem {α : Type} {better : α → α → Bool} {l : List α} {x : α}
    (h : pickBest better l = some x) : x ∈ l := by
  have hfold : ∀ (l : List α) (best : Option α), l.foldl (pickStep better) best = some x →
      x ∈ l ∨ best = some x := by
    intro l
    induction l with
    | nil => exact fun best hbest => .inr hbest
    | cons c l ih =>
        intro best hbest
        rcases ih _ hbest with hmem | hstep
        · exact .inl (List.mem_cons_of_mem _ hmem)
        · cases best with
          | none => exact .inl (Option.some.inj hstep ▸ List.mem_cons_self)
          | some b =>
              simp only [pickStep] at hstep
              split at hstep
              · exact .inl (Option.some.inj hstep ▸ List.mem_cons_self)
              · exact .inr hstep
  rcases hfold l none h with hmem | hnone
  · exact hmem
  · cases hnone

namespace AddressIndex
variable {orders : IndexOrders} {idx : AddressIndex} {addr : UInt64}

/-- The interval is filed in the index. -/
def Files (idx : AddressIndex) (iv : Interval) : Prop :=
  iv ∈ idx.statics ∨ ∃ f ∈ idx.dynamics, iv ∈ f.2

@[simp] theorem lookup_statics : (idx.lookup orders addr).1.statics = idx.statics := by
  rw [lookup]
  split
  · rfl
  · split
    · rfl
    · split
      · rfl
      · split <;> rfl

theorem files_of_frame {fid : FrameId} {ivs : List Interval} (h : idx.frame fid = some ivs)
    {iv : Interval} (hiv : iv ∈ ivs) : idx.Files iv := by
  obtain ⟨f, hf, rfl⟩ := Option.map_eq_some_iff.mp h
  exact .inr ⟨f, List.mem_of_find?_eq_some hf, hiv⟩

theorem files_of_resolveMru {e : MruEntry} {iv : Interval} (h : idx.resolveMru e = some iv) :
    idx.Files iv := by
  cases e with
  | static lo hi i => exact .inl (List.mem_of_getElem? h)
  | dynamic lo hi fid li =>
      obtain ⟨ivs, hframe, hiv⟩ := Option.bind_eq_some_iff.mp h
      exact files_of_frame hframe (List.mem_of_getElem? hiv)

theorem files_of_lookupDynamics {h : FrameHit} (hhit : lookupDynamics orders idx addr = some h) :
    idx.Files h.interval := by
  obtain ⟨f, hf, hmem⟩ := List.mem_flatMap.mp (pickBest_mem hhit)
  obtain ⟨iv, hiv, rfl⟩ := List.mem_map.mp hmem
  exact .inr ⟨f, (orders.iterate_perm _).mem_iff.mp hf,
    List.mem_of_getElem? (List.mem_zipIdx_iff_getElem?.mp (List.mem_of_mem_filter hiv))⟩

theorem files_of_lookupStatics {r : Interval × ℕ} (hhit : idx.lookupStatics addr = some r) :
    idx.Files r.1 := by
  rw [lookupStatics] at hhit
  dsimp only at hhit
  split at hhit
  · cases hhit
  · have hgroup := (List.takeWhile_sublist _).subset (List.mem_of_mem_filter (pickBest_mem hhit))
    have hbelow := (List.takeWhile_sublist _).subset (List.mem_reverse.mp hgroup)
    exact .inl (List.mem_of_getElem? (List.mem_zipIdx_iff_getElem?.mp hbelow))

/-- What a lookup finds is filed, whether it was cached or not. -/
theorem files_of_lookup {iv : Interval} (h : (idx.lookup orders addr).2 = some iv) :
    idx.Files iv := by
  rw [lookup] at h
  split at h
  · cases h
  · split at h
    · exact files_of_resolveMru h
    · split at h
      · rename_i hit hhit
        obtain rfl := Option.some.inj h
        exact files_of_lookupDynamics hhit
      · split at h
        · rename_i hhit
          obtain rfl := Option.some.inj h
          exact files_of_lookupStatics hhit
        · cases h

end AddressIndex

end Lookup

/-- Every interval of the index has its node. A static interval is no frame's, a frame's
intervals are its own. -/
structure Noded (idx : AddressIndex) (w : World) : Prop where
  statics : ∀ iv ∈ idx.statics,
    (∀ fid li, iv.nodeId ≠ .local fid li) ∧ (w.nodes iv.nodeId).isSome
  dynamics : ∀ f ∈ idx.dynamics, ∀ iv ∈ f.2,
    (∃ li, iv.nodeId = .local f.1 li) ∧ (w.nodes iv.nodeId).isSome

namespace Noded
variable {idx : AddressIndex} {w v : World}

theorem node (h : Noded idx w) {iv : Interval} (hiv : idx.Files iv) :
    (w.nodes iv.nodeId).isSome := by
  rcases hiv with hiv | ⟨f, hf, hiv⟩
  · exact (h.statics iv hiv).2
  · exact (h.dynamics f hf iv hiv).2

theorem empty (w : World) : Noded {} w where
  statics _ h := by cases h
  dynamics _ h := by cases h

/-- More nodes do no harm. -/
theorem mono (h : Noded idx w) (hnodes : ∀ id, (w.nodes id).isSome → (v.nodes id).isSome) :
    Noded idx v where
  statics iv hiv := (h.statics iv hiv).imp id (hnodes _)
  dynamics f hf iv hiv := (h.dynamics f hf iv hiv).imp id (hnodes _)

theorem insertStatic (h : Noded idx w) (addr size : UInt64) (name : String) (ti : TypeInfo)
    {id : NodeId} (hid : ∀ fid li, id ≠ .local fid li) (hnode : (w.nodes id).isSome) :
    Noded (idx.insertStatic addr size name ti id) w := by
  unfold AddressIndex.insertStatic
  split
  · exact h
  · refine ⟨fun iv hiv => ?_, h.dynamics⟩
    rcases List.mem_append.mp hiv with hiv | hiv
    · exact h.statics iv hiv
    · obtain rfl := List.mem_singleton.mp hiv
      exact ⟨hid, hnode⟩

theorem finalize (h : Noded idx w) (orders : IndexOrders) : Noded (idx.finalize orders) w := by
  unfold AddressIndex.finalize
  split
  · exact h
  · exact ⟨fun iv hiv => h.statics iv ((orders.sortByLo_perm _).mem_iff.mp hiv), h.dynamics⟩

/-- A frame's locals go in once their nodes are there. -/
theorem insertFrameLocals (h : Noded idx w) {fid : FrameId} {locals : List LocalVar}
    (hlocals : ∀ l ∈ locals.zipIdx, (w.nodes (.local fid (UInt16.ofNat l.2))).isSome)
    (base : UInt64) : Noded (idx.insertFrameLocals fid base locals) w := by
  have hwidened : ∀ (ivs : List Interval) (i : AddressIndex),
      (ivs.foldl (fun i iv => i.widenUniverse iv.lo iv.hi) i).statics = i.statics := by
    intro ivs
    induction ivs with
    | nil => exact fun _ => rfl
    | cons iv ivs ih => exact fun i => ih _
  simp only [AddressIndex.insertFrameLocals]
  split
  · refine ⟨fun iv hiv => ?_, fun f hf => ?_⟩
    · exact h.statics iv (hwidened _ idx ▸ hiv)
    · exact h.dynamics f (AddressIndex.foldl_widenUniverse_dynamics _ idx ▸ hf)
  · refine ⟨fun iv hiv => h.statics iv (hwidened _ idx ▸ hiv), fun f hf iv hiv => ?_⟩
    rcases List.mem_cons.mp hf with rfl | hf
    · obtain ⟨l, hl, rfl⟩ := List.mem_map.mp hiv
      exact ⟨⟨_, rfl⟩, hlocals l (List.mem_of_mem_filter hl)⟩
    · exact h.dynamics f (List.mem_of_mem_filter hf) iv hiv

/-- Taking a frame out of the index. -/
theorem removeFrame (h : Noded idx w) (fid : FrameId) : Noded (idx.removeFrame fid) w :=
  ⟨h.statics, fun f hf => h.dynamics f (List.mem_of_mem_filter hf)⟩

/-- The nodes of a frame that the index does not hold. -/
theorem removeFrameNodes (h : Noded idx w) {fid : FrameId} (hgone : ∀ f ∈ idx.dynamics, f.1 ≠ fid) :
    Noded idx (w.removeFrameNodes fid) := by
  have hkept (i : NodeId) (hi : ∀ li, i ≠ .local fid li) :
      (w.removeFrameNodes fid).nodes i = w.nodes i := by
    rw [nodes_removeFrameNodes, if_neg]
    intro hdead
    cases i with
    | «local» f li =>
        have hf : f = fid := by simpa [World.isLocalOf] using (Bool.and_eq_true_iff.mp hdead).1
        exact hi li (hf ▸ rfl)
    | _ => cases hdead
  refine ⟨fun iv hiv => ?_, fun f hf iv hiv => ?_⟩
  · obtain ⟨hlocal, hnode⟩ := h.statics iv hiv
    exact ⟨hlocal, by rw [hkept _ (hlocal fid)]; exact hnode⟩
  · obtain ⟨⟨li, hli⟩, hnode⟩ := h.dynamics f hf iv hiv
    refine ⟨⟨li, hli⟩, ?_⟩
    rw [hkept _ (fun li' hli' => ?_)]
    · exact hnode
    · rw [hli] at hli'
      exact hgone f hf (NodeId.local.inj hli').1

end Noded

theorem populates_noded : Populates Noded where
  register replace idx w addr size name ti id hid h := by
    refine (h.mono fun i hi => ?_).insertStatic addr size name ti hid ?_
    · rw [nodes_renewNode]
      split
      · rfl
      · exact hi
    · rw [nodes_renewNode]
      split
      · rfl
      · rename_i hold
        exact Option.isSome_iff_ne_none.mpr fun hnone => hold ⟨rfl, .inr hnone⟩
  types _ _ _ h := h.mono fun _ hi => hi
  sort orders _ _ h := h.finalize orders

/-- Globals are no locals. -/
theorem populates_locals (nodes : NodeId → Option Node) :
    Populates fun _ w => ∀ fid li, w.nodes (.local fid li) = nodes (.local fid li) where
  register replace idx w addr size name ti id hid h fid li := by
    rw [nodes_renewNode, if_neg fun hi => hid fid li hi.1.symm]
    exact h fid li
  types _ _ _ h := h
  sort _ _ _ h := h

/-- The target of an edge that does not dangle has a node. -/
def Targeted (w : World) : Prop :=
  ∀ id e, w.edges id = some e → e.isDangling = false → (w.nodes e.target).isSome

theorem keeps_targeted : Keeps Targeted where
  renew replace w id name ti addr size h i e he hd := by
    rw [edges_renewNode] at he
    split at he
    · cases he
    · rw [nodes_renewNode]
      split
      · rfl
      · exact h i e he hd
  retire w fid h i e he hd := by
    rw [edges_removeFrameNodes] at he
    split at he
    · cases he
    · obtain ⟨hedge, hlive⟩ := Option.filter_eq_some_iff.mp he
      rw [nodes_removeFrameNodes, if_neg (by simpa using hlive)]
      exact h i e hedge hd
  graph w v hnodes hedges h := by
    unfold Targeted
    rw [hnodes, hedges]
    exact h

section Write
variable {host : Host} {ev : Event} {s : State}

/-- A WRITE moves no node: the variable it hits has one. -/
theorem isSome_nodes_node (h : Noded s.addrIndex s.world) (id : NodeId) :
    ((Write.node host ev s).world.nodes id).isSome ↔ (s.world.nodes id).isSome := by
  cases hfound : (s.addrIndex.lookup host.orders ev.addr).2 with
  | none =>
      rw [Write.node_of_none hfound]
  | some iv =>
      obtain ⟨n, -, hnodes⟩ := Write.nodes_node hfound
      rw [hnodes, Function.update_apply]
      split
      · rename_i hid
        subst hid
        simp [h.node (AddressIndex.files_of_lookup hfound)]
      · rfl

theorem statics_node : (Write.node host ev s).addrIndex.statics = s.addrIndex.statics := by
  have htarget (t : State) : (Write.target host ev t).1.statics = t.addrIndex.statics := by
    rw [Write.target]
    split
    · rfl
    · exact AddressIndex.lookup_statics
  rw [Write.node]
  split
  · exact AddressIndex.lookup_statics
  · rename_i iv _
    split
    · obtain ⟨m, log, info, topo, hpointer⟩ := @Write.pointer_eq host ev (Write.value ev iv { s with
        addrIndex := (s.addrIndex.lookup host.orders ev.addr).1 }) iv
      rw [hpointer]
      exact (htarget _).trans AddressIndex.lookup_statics
    · exact AddressIndex.lookup_statics

/-- What the written pointer refers to is in the index. -/
theorem files_of_pointee {id : NodeId} (h : Write.pointee host ev s = some id) :
    ∃ iv, s.addrIndex.Files iv ∧ iv.nodeId = id := by
  rw [Write.pointee, Write.target] at h
  split at h
  · cases h
  · obtain ⟨iv, hiv, rfl⟩ := Option.map_eq_some_iff.mp h
    have hfiles := AddressIndex.files_of_lookup hiv
    refine ⟨iv, ?_, rfl⟩
    simpa [AddressIndex.Files] using hfiles

theorem targeted_node (hnoded : Noded s.addrIndex s.world) (h : Targeted s.world) :
    Targeted (Write.node host ev s).world := by
  intro i e he hd
  rw [isSome_nodes_node hnoded]
  cases hfound : (s.addrIndex.lookup host.orders ev.addr).2 with
  | none =>
      rw [Write.node_of_none hfound] at he
      exact h i e he hd
  | some iv =>
      obtain ⟨hother, hown⟩ := edges_node_cases hfound
      by_cases hi : i = iv.nodeId
      · subst hi
        split at hown
        · rcases hown with ⟨-, hnone⟩ | ⟨-, e', he', -, -, hpointee⟩
          · rw [hnone] at he
            cases he
          · rw [he'] at he
            obtain rfl := Option.some.inj he
            obtain ⟨iv', hiv', htarget⟩ := files_of_pointee (hpointee hd)
            rw [← htarget]
            exact hnoded.node hiv'
        · exact h _ e (hown ▸ he) hd
      · exact h i e (hother i hi ▸ he) hd

end Write

section Call
variable {host : Host} {ev : Event} {s : State}

theorem processCall_unknown (h : s.callee ev.addr = none) : ∃ regs oracle,
    processCall host ev s = { s with shadowRegs := regs, heapOracle := oracle } := by
  rw [processCall]
  split
  · rename_i f hf
    rw [show s.callee ev.addr = some f from hf] at h
    cases h
  · exact ⟨_, _, rfl⟩

theorem processCall_known {f : FunctionMeta} (h : s.callee ev.addr = some f) : ∃ regs oracle,
    processCall host ev s =
      Call.enter host ev f { s with shadowRegs := regs, heapOracle := oracle } := by
  rw [processCall]
  split
  · rename_i g hg
    obtain rfl : g = f := Option.some.inj (hg.symm.trans h)
    exact ⟨_, _, rfl⟩
  · rename_i hnone
    rw [show s.callee ev.addr = none from hnone] at h
    cases h

theorem isSome_nodes_foldl (ls : List (LocalVar × ℕ)) (id : LocalVar × ℕ → NodeId)
    (addr : LocalVar × ℕ → UInt64) (w : World) (i : NodeId) :
    ((ls.foldl (fun w l => w.ensureNode (id l) l.1.name l.1.typeInfo (addr l) l.1.size) w).nodes
      i).isSome ↔ (∃ l ∈ ls, i = id l) ∨ (w.nodes i).isSome := by
  induction ls generalizing w with
  | nil => simp
  | cons l ls ih =>
      rw [List.foldl_cons, ih, isSome_nodes_ensureNode]
      simp only [List.mem_cons, exists_eq_or_imp]
      exact or_left_comm.trans or_assoc.symm

/-- The frames in the index after a CALL. -/
theorem mem_dynamics_enter {f : FunctionMeta} {g : FrameId × List Interval}
    (h : g ∈ (Call.enter host ev f s).addrIndex.dynamics) :
    g.1 = s.nextFrameId ∨ g ∈ s.addrIndex.dynamics := by
  simp only [Call.enter] at h
  split at h
  · exact .inr h
  · rw [AddressIndex.insertFrameLocals] at h
    split at h
    · exact .inr (AddressIndex.foldl_widenUniverse_dynamics _ s.addrIndex ▸ h)
    · rcases List.mem_cons.mp h with rfl | h
      · exact .inl rfl
      · exact .inr (List.mem_of_mem_filter h)

end Call

section Return
variable {ev : Event} {s : State}

theorem processReturn_empty (h : (s.framesOf ev.threadId).head? = none) : ∃ regs threads,
    processReturn ev s = { s with shadowRegs := regs, threadStacks := threads } := by
  have hnil : s.framesOf ev.threadId = [] := List.head?_eq_none_iff.mp h
  rw [processReturn]
  split
  · exact ⟨_, _, rfl⟩
  · rename_i stack hstack
    have hempty : stack.frames = [] := by
      rw [← hnil, State.framesOf, show s.threadStacks ev.threadId = some stack from hstack]
      rfl
    rw [ShadowStack.popReturn_nil hempty]
    exact ⟨_, _, rfl⟩

theorem processReturn_top {f : ShadowFrame} (h : (s.framesOf ev.threadId).head? = some f) :
    ∃ regs threads, processReturn ev s = retireFrame f.frameId { s with
      shadowRegs := regs
      threadStacks := threads
      addrIndex := s.addrIndex.removeFrame f.frameId } := by
  obtain ⟨rest, hcons⟩ := List.head?_eq_some_iff.mp h
  rw [processReturn]
  split
  · rename_i hnone
    rw [State.framesOf, show s.threadStacks ev.threadId = none from hnone] at hcons
    cases hcons
  · rename_i stack hstack
    have hframes : stack.frames = f :: rest := by
      rw [← hcons, State.framesOf, show s.threadStacks ev.threadId = some stack from hstack]
      rfl
    rw [ShadowStack.popReturn_cons hframes]
    exact ⟨_, _, rfl⟩

/-- A frame joins the queue, which then has at most 32 frames or loses its first. -/
theorem retireFrame_cases (fid : FrameId) (s : State) :
    retireFrame fid s = { s with returnedFrames := s.returnedFrames ++ [fid] } ∨
    ∃ oldest rest, s.returnedFrames ++ [fid] = oldest :: rest ∧ retireFrame fid s =
      { s with returnedFrames := rest, world := s.world.removeFrameNodes oldest } := by
  rw [retireFrame]
  split
  · rename_i oldest rest hqueue
    split
    · exact .inr ⟨oldest, rest, hqueue, rfl⟩
    · exact .inl rfl
  · rename_i hnil
    simp at hnil

theorem returnedFrames_retireFrame (fid : FrameId) (h : s.returnedFrames.length ≤ 32) :
    (retireFrame fid s).returnedFrames = (s.returnedFrames ++ [fid]).rtake 32 := by
  have hlen : (s.returnedFrames ++ [fid]).length = s.returnedFrames.length + 1 := by simp
  rw [retireFrame]
  split
  · rename_i oldest rest hqueue
    split
    · rename_i hfull
      have hone : (oldest :: rest).length - 32 = 1 := by
        rw [hqueue] at hlen hfull
        omega
      rw [List.rtake, hqueue, hone]
      rfl
    · rename_i hroom
      exact (RingLog.rtake_of_length_le (Nat.le_of_not_lt hroom)).symm
  · rename_i hnil
    simp at hnil

end Return

theorem returnedFrames_libraries (host : Host) (modtab : List Module) (s : State) :
    (populateLibGlobals host modtab s).1.returnedFrames = s.returnedFrames := by
  rw [populateLibGlobals]
  split
  · rfl
  · split
    · rfl
    · split <;> rfl

/-- The invariant of frames, index, nodes and edges. Frame numbers grow, so that a frame
returned from never comes back. -/
structure FrameInv (s : State) : Prop where
  below : ∀ tid, ∀ f ∈ s.framesOf tid, f.frameId < s.nextFrameId
  gone : ∀ fid ∈ s.returnedFrames,
    fid < s.nextFrameId ∧ ∀ f ∈ s.addrIndex.dynamics, f.1 ≠ fid
  held : ∀ f ∈ s.addrIndex.dynamics, s.OnStack f.1
  locals : ∀ fid li, (s.world.nodes (.local fid li)).isSome →
    s.OnStack fid ∨ fid ∈ s.returnedFrames
  noded : Noded s.addrIndex s.world
  targeted : Targeted s.world

namespace FrameInv
variable {s t : State}

theorem tidy (h : FrameInv s) (hlinked : Linked s.world) {returned : List FrameId}
    (hqueue : s.returnedFrames = returned.rtake 32) : Tidy returned s where
  locals fid li hnode := hqueue ▸ h.locals fid li hnode
  held fid hfid := by
    obtain ⟨ivs, hivs⟩ := Option.isSome_iff_exists.mp hfid
    obtain ⟨f, hf, -⟩ := Option.map_eq_some_iff.mp hivs
    have hname : f.1 = fid := by simpa using List.find?_some hf
    exact hname ▸ h.held f (List.mem_of_find?_eq_some hf)
  edges id e he hd := by
    rw [hlinked.source id e he]
    exact ⟨hlinked.node id e he, h.targeted id e he hd⟩

/-- A step that moves no frame, and adds no local. -/
theorem still (h : FrameInv s) (hframes : ∀ tid, t.framesOf tid = s.framesOf tid)
    (hnext : t.nextFrameId = s.nextFrameId) (hqueue : t.returnedFrames = s.returnedFrames)
    (hdynamics : ∀ f ∈ t.addrIndex.dynamics, f ∈ s.addrIndex.dynamics)
    (hlocals : ∀ fid li, (t.world.nodes (.local fid li)).isSome →
      (s.world.nodes (.local fid li)).isSome)
    (hnoded : Noded t.addrIndex t.world) (htargeted : Targeted t.world) : FrameInv t := by
  have hstack (fid : FrameId) : s.OnStack fid → t.OnStack fid := by
    rintro ⟨tid, f, hf, hfid⟩
    exact ⟨tid, f, hframes tid ▸ hf, hfid⟩
  refine ⟨fun tid f hf => ?_, fun fid hfid => ?_, fun f hf => ?_, fun fid li hnode => ?_, hnoded,
    htargeted⟩
  · rw [hnext]
    exact h.below tid f (hframes tid ▸ hf)
  · obtain ⟨hlt, hnone⟩ := h.gone fid (hqueue ▸ hfid)
    exact ⟨hnext ▸ hlt, fun f hf => hnone f (hdynamics f hf)⟩
  · exact hstack _ (h.held f (hdynamics f hf))
  · rw [hqueue]
    exact (h.locals fid li (hlocals fid li hnode)).imp (hstack fid) id

/-- A step that leaves frames, index and nodes alone. -/
theorem unmoved (h : FrameInv s) (hview : t.frameView = s.frameView)
    (hqueue : t.returnedFrames = s.returnedFrames)
    (hstatics : t.addrIndex.statics = s.addrIndex.statics)
    (hnodes : ∀ id, (t.world.nodes id).isSome ↔ (s.world.nodes id).isSome)
    (htargeted : Targeted t.world) : FrameInv t := by
  have hdynamics : t.addrIndex.dynamics = s.addrIndex.dynamics := congrArg (·.dynamics) hview
  refine h.still (framesOf_of_frameView hview) (congrArg (·.nextFrameId) hview) hqueue
    (fun f hf => hdynamics ▸ hf) (fun _ _ => (hnodes _).mp) ⟨fun iv hiv => ?_, fun f hf => ?_⟩
    htargeted
  · exact (h.noded.statics iv (hstatics ▸ hiv)).imp id (hnodes _).mpr
  · exact fun iv hiv => (h.noded.dynamics f (hdynamics ▸ hf) iv hiv).imp id (hnodes _).mpr

theorem count (h : FrameInv s) : FrameInv (countEvent s) :=
  h.unmoved rfl rfl rfl (fun _ => .rfl) (keeps_targeted.graph s.world _ rfl rfl h.targeted)

section Events
variable {host : Host} {ev : Event}

/-- A WRITE writes values and edges only. -/
theorem write (h : FrameInv s) : FrameInv (processWrite host ev (countEvent s)) := by
  obtain ⟨g, m, hs, vs, info, regs, topo, hbefore⟩ := beforeNode_eq host ev s
  have hfixed := fixed_processWrite host ev (countEvent s)
  rw [processWrite_countEvent] at hfixed ⊢
  have hb : Noded (beforeNode host ev s).addrIndex (beforeNode host ev s).world := by
    rw [hbefore]
    exact h.noded.mono fun _ hi => hi
  refine h.unmoved (congrArg Kept.frameView hfixed :)
    (congrArg Kept.returnedFrames hfixed :) ?_ ?_ ?_
  · rw [statics_node, hbefore]
    rfl
  · intro id
    rw [isSome_nodes_node hb, hbefore]
    rfl
  · refine targeted_node hb ?_
    rw [hbefore]
    exact keeps_targeted.graph s.world _ rfl rfl h.targeted

/-- A CALL gives its frame a new number and its locals nodes of that number. -/
theorem call (h : FrameInv s) : FrameInv (processCall host ev s) := by
  cases hf : s.callee ev.addr with
  | none =>
      obtain ⟨regs, oracle, hcall⟩ := @processCall_unknown host ev s hf
      rw [hcall]
      exact h.unmoved rfl rfl rfl (fun _ => .rfl) h.targeted
  | some f =>
      obtain ⟨hframes, hnext, -⟩ := call_spec host hf
      obtain ⟨regs, oracle, hcall⟩ := @processCall_known host ev s f hf
      have hpushed : (processCall host ev s).OnStack s.nextFrameId :=
        ⟨ev.threadId, ⟨s.nextFrameId, ev.addr, f.name⟩, by simp [hframes], rfl⟩
      have hstack (fid : FrameId) : s.OnStack fid → (processCall host ev s).OnStack fid := by
        rintro ⟨tid, g, hg, hfid⟩
        refine ⟨tid, g, ?_, hfid⟩
        rw [hframes]
        split
        · exact List.mem_cons_of_mem _ hg
        · exact hg
      have hqueue : (processCall host ev s).returnedFrames = s.returnedFrames := by
        rw [hcall]
        rfl
      have hnodes (id : NodeId) : ((processCall host ev s).world.nodes id).isSome ↔
          (∃ l ∈ f.locals.zipIdx, id = .local s.nextFrameId (UInt16.ofNat l.2)) ∨
            (s.world.nodes id).isSome := by
        rw [hcall]
        exact isSome_nodes_foldl f.locals.zipIdx _ _ s.world id
      have hnoded : Noded (processCall host ev s).addrIndex (processCall host ev s).world := by
        have hold := h.noded.mono fun id hid => (hnodes id).mpr (.inr hid)
        have hnew : (processCall host ev s).addrIndex = if f.locals.isEmpty then s.addrIndex
            else s.addrIndex.insertFrameLocals s.nextFrameId ev.value f.locals := by
          rw [hcall]
          rfl
        rw [hnew]
        split
        · exact hold
        · exact hold.insertFrameLocals (fun l hl => (hnodes _).mpr (.inl ⟨l, hl, rfl⟩)) ev.value
      have hdynamics : ∀ g ∈ (processCall host ev s).addrIndex.dynamics,
          g.1 = s.nextFrameId ∨ g ∈ s.addrIndex.dynamics := by
        rw [hcall]
        exact fun g hg => @mem_dynamics_enter host ev _ f g hg
      refine ⟨fun tid g hg => ?_, fun fid hfid => ?_, fun g hg => ?_, fun fid li hnode => ?_,
        hnoded, ?_⟩
      · rw [hframes] at hg
        rw [hnext]
        split at hg
        · rcases List.mem_cons.mp hg with rfl | hg
          · exact Nat.lt_succ_self _
          · exact Nat.lt_succ_of_lt (h.below tid g hg)
        · exact Nat.lt_succ_of_lt (h.below tid g hg)
      · obtain ⟨hlt, hnone⟩ := h.gone fid (hqueue ▸ hfid)
        refine ⟨hnext ▸ Nat.lt_succ_of_lt hlt, fun g hg => ?_⟩
        rcases hdynamics g hg with hnew | hold
        · exact hnew ▸ (Nat.ne_of_lt hlt).symm
        · exact hnone g hold
      · rcases hdynamics g hg with hnew | hold
        · exact hnew ▸ hpushed
        · exact hstack _ (h.held g hold)
      · rw [hqueue]
        rcases (hnodes _).mp hnode with ⟨l, -, hnew⟩ | hold
        · exact .inl ((NodeId.local.inj hnew).1 ▸ hpushed)
        · exact (h.locals fid li hold).imp (hstack fid) id
      · rw [hcall]
        exact keeps_targeted.enter f h.targeted

/-- The top frame leaves its stack and the index for the queue. -/
theorem pop (h : FrameInv s) {tid : UInt16} {f : ShadowFrame}
    (hf : (s.framesOf tid).head? = some f)
    (hframes : ∀ t', t.framesOf t' = if t' = tid then (s.framesOf t').tail else s.framesOf t')
    (hnext : t.nextFrameId = s.nextFrameId) (hworld : t.world = s.world)
    (hindex : t.addrIndex = s.addrIndex.removeFrame f.frameId)
    (hqueue : t.returnedFrames = s.returnedFrames ++ [f.frameId]) : FrameInv t := by
  have hmem : f ∈ s.framesOf tid := List.mem_of_mem_head? hf
  have hsub (t' : UInt16) (g : ShadowFrame) (hg : g ∈ t.framesOf t') : g ∈ s.framesOf t' := by
    rw [hframes] at hg
    split at hg
    · exact List.mem_of_mem_tail hg
    · exact hg
  have hstack (fid : FrameId) (hne : fid ≠ f.frameId) : s.OnStack fid → t.OnStack fid := by
    rintro ⟨t', g, hg, rfl⟩
    refine ⟨t', g, ?_, rfl⟩
    rw [hframes]
    split
    · rename_i ht
      subst ht
      obtain ⟨rest, hrest⟩ := List.head?_eq_some_iff.mp hf
      rw [hrest] at hg ⊢
      exact (List.mem_cons.mp hg).resolve_left fun hgf => hne (hgf ▸ rfl)
    · exact hg
  have hheld (g : FrameId × List Interval) (hg : g ∈ t.addrIndex.dynamics) :
      g ∈ s.addrIndex.dynamics ∧ g.1 ≠ f.frameId := by
    rw [hindex] at hg
    simpa [AddressIndex.removeFrame] using hg
  refine ⟨fun t' g hg => ?_, fun fid hfid => ?_, fun g hg => ?_, fun fid li hnode => ?_, ?_, ?_⟩
  · exact hnext ▸ h.below t' g (hsub t' g hg)
  · rw [hqueue, List.mem_append, List.mem_singleton] at hfid
    rw [hnext]
    rcases hfid with hfid | rfl
    · exact (h.gone fid hfid).imp id fun hnone g hg => hnone g (hheld g hg).1
    · exact ⟨h.below tid f hmem, fun g hg => (hheld g hg).2⟩
  · exact hstack _ (hheld g hg).2 (h.held g (hheld g hg).1)
  · rw [hqueue, List.mem_append, List.mem_singleton]
    by_cases hfid : fid = f.frameId
    · exact .inr (.inr hfid)
    · exact (h.locals fid li (hworld ▸ hnode)).imp (hstack fid hfid) .inl
  · rw [hindex, hworld]
    exact h.noded.removeFrame f.frameId
  · exact hworld ▸ h.targeted

/-- The oldest frame of the queue loses its nodes. -/
theorem forget (h : FrameInv s) {oldest : FrameId} {rest : List FrameId}
    (hqueue : s.returnedFrames = oldest :: rest) :
    FrameInv { s with returnedFrames := rest, world := s.world.removeFrameNodes oldest } := by
  refine ⟨h.below, fun fid hfid => ?_, h.held, fun fid li hnode => ?_, ?_, ?_⟩
  · exact h.gone fid (hqueue ▸ List.mem_cons_of_mem _ hfid)
  · dsimp only at hnode
    rw [nodes_removeFrameNodes] at hnode
    split at hnode
    · cases hnode
    · rename_i hlive
      refine (h.locals fid li hnode).imp id fun hfid => ?_
      rw [hqueue] at hfid
      refine (List.mem_cons.mp hfid).resolve_left fun hold => hlive ?_
      simpa [World.isDead, World.isLocalOf, World.nodeExists, hold] using hnode
  · exact h.noded.removeFrameNodes (h.gone oldest (hqueue ▸ List.mem_cons_self)).2
  · exact keeps_targeted.retire _ _ h.targeted

/-- A RETURN takes the top frame out of the index. Its nodes are kept, and those of the
oldest of 33 returned frames go. -/
theorem ret (h : FrameInv s) : FrameInv (processReturn ev s) := by
  obtain ⟨hframes, -, -⟩ := return_spec ev s
  cases hf : (s.framesOf ev.threadId).head? with
  | none =>
      obtain ⟨regs, threads, hret⟩ := processReturn_empty hf
      have hnil : s.framesOf ev.threadId = [] := List.head?_eq_none_iff.mp hf
      refine h.still (fun tid => ?_) ?_ ?_ ?_ ?_ ?_ ?_
      · rw [hframes]
        split
        · rename_i htid
          rw [htid, hnil]
          rfl
        · rfl
      all_goals rw [hret]
      · exact fun _ hg => hg
      · exact fun _ _ hnode => hnode
      · exact h.noded
      · exact h.targeted
  | some f =>
      obtain ⟨regs, threads, hret⟩ := processReturn_top hf
      let popped : State := { s with
        shadowRegs := regs
        threadStacks := threads
        addrIndex := s.addrIndex.removeFrame f.frameId
        returnedFrames := s.returnedFrames ++ [f.frameId] }
      have hretired : processReturn ev s = popped ∨ ∃ oldest rest,
          popped.returnedFrames = oldest :: rest ∧ processReturn ev s = { popped with
            returnedFrames := rest, world := popped.world.removeFrameNodes oldest } := by
        rw [hret]
        exact retireFrame_cases f.frameId _
      have hpopped : FrameInv popped := by
        refine h.pop hf (fun t' => ?_) rfl rfl rfl rfl
        rw [← hframes]
        rcases hretired with heq | ⟨oldest, rest, -, heq⟩
        · rw [heq]
        · rw [heq]
          rfl
      rcases hretired with heq | ⟨oldest, rest, hqueue, heq⟩
      · rw [heq]
        exact hpopped
      · rw [heq]
        exact hpopped.forget hqueue

/-- A MODULE_LOAD, relocating or not. -/
theorem load (h : FrameInv s) : FrameInv (processModuleLoad host ev s) := by
  rw [processModuleLoad]
  split
  · rename_i info _ _
    refine h.still (fun _ => rfl) rfl rfl (fun f hf => ?_) (fun fid li hnode => ?_) ?_ ?_
    · rw [populateGlobals_dynamics] at hf
      cases hf
    · rw [@Populates.globals _ (populates_locals s.world.nodes) host info _ {} _ fun _ _ => rfl]
        at hnode
      exact hnode
    · exact populates_noded.globals host info _ (.empty _)
    · exact @Populates.globals _ keeps_targeted.populates host info _ {} _ h.targeted
  · exact h.unmoved rfl rfl rfl (fun _ => .rfl) h.targeted

end Events

theorem libraries (h : FrameInv s) (host : Host) (modtab : List Module) :
    FrameInv (populateLibGlobals host modtab s).1 := by
  have hview := FramesInv.frameView_libraries host modtab s
  have hdynamics : (populateLibGlobals host modtab s).1.addrIndex.dynamics = s.addrIndex.dynamics :=
    congrArg (·.dynamics) hview
  refine h.still (framesOf_of_frameView hview) (congrArg (·.nextFrameId) hview)
    (returnedFrames_libraries host modtab s) (fun f hf => hdynamics ▸ hf)
    (fun fid li hnode => ?_) (populates_noded.libGlobals host modtab h.noded)
    (keeps_targeted.populates.libGlobals host modtab h.targeted)
  rw [(populates_locals s.world.nodes).libGlobals host modtab fun _ _ => rfl] at hnode
  exact hnode

theorem apply (h : FrameInv s) (i : Input) : FrameInv (i.apply s) := by
  cases i with
  | event host ev =>
      have hcount := h.count
      rw [Input.apply, processEvent, processKind]
      cases hkind : kindOf ev with
      | write => exact h.write
      | call => exact hcount.call
      | ret => exact hcount.ret
      | moduleLoad => exact hcount.load
      | alloc =>
          obtain ⟨m, allocs, log, g, info, topo, heq⟩ := processAlloc_eq host ev (countEvent s)
          dsimp only
          rw [heq]
          exact hcount.unmoved rfl rfl rfl (fun _ => .rfl) h.targeted
      | free =>
          obtain ⟨m, allocs, log, g, topo, heq⟩ := processFree_eq ev (countEvent s)
          dsimp only
          rw [heq]
          exact hcount.unmoved rfl rfl rfl (fun _ => .rfl) h.targeted
      | cacheMiss =>
          have hview : (processKind host ev (countEvent s)).frameView = (countEvent s).frameView :=
            frameView_other (by simp [hkind]) (by simp [hkind]) (by simp [hkind])
          rw [processKind, hkind] at hview
          exact hcount.unmoved hview rfl AddressIndex.lookup_statics (fun _ => .rfl) h.targeted
      | _ => exact hcount.unmoved rfl rfl rfl (fun _ => .rfl) h.targeted
  | snapshot u => exact h.unmoved rfl rfl rfl (fun _ => .rfl) h.targeted
  | libraries host modtab => exact h.libraries host modtab

end FrameInv

section Run
variable {host : Host} {ev : Event} {s : State}

theorem returnedFrames_other (h : kindOf ev ≠ .ret) :
    (processKind host ev s).returnedFrames = s.returnedFrames := by
  rw [processKind]
  cases hkind : kindOf ev with
  | ret => exact absurd hkind h
  | write => exact (congrArg Kept.returnedFrames (fixed_processWrite host ev s) :)
  | call =>
      dsimp only
      rw [processCall]
      split <;> rfl
  | moduleLoad =>
      dsimp only
      rw [processModuleLoad]
      split <;> rfl
  | alloc => exact (congrArg Kept.returnedFrames (kept_processAlloc host ev s) :)
  | free => exact (congrArg Kept.returnedFrames (kept_processFree ev s) :)
  | _ => rfl

/-- The queue holds the last 32 of the frames returned from. -/
theorem returnedFrames_apply (h : s.returnedFrames.length ≤ 32) (i : Input) :
    (i.apply s).returnedFrames = (s.returnedFrames ++ (i.returned s).toList).rtake 32 := by
  have hsame : s.returnedFrames = (s.returnedFrames ++ []).rtake 32 := by
    rw [List.append_nil, RingLog.rtake_of_length_le h]
  cases i with
  | event host ev =>
      simp only [Input.apply, Input.returned, processEvent]
      split
      · rename_i hkind
        have hprocess : processKind host ev (countEvent s) = processReturn ev (countEvent s) := by
          rw [processKind, hkind]
        rw [hprocess]
        cases hf : (s.framesOf ev.threadId).head? with
        | none =>
            obtain ⟨regs, threads, hret⟩ := processReturn_empty (s := countEvent s) hf
            rw [hret]
            exact hsame
        | some f =>
            obtain ⟨regs, threads, hret⟩ := processReturn_top (s := countEvent s) hf
            rw [hret]
            exact returnedFrames_retireFrame f.frameId h
      · rename_i hkind
        rw [returnedFrames_other hkind]
        exact hsame
  | snapshot u => exact hsame
  | libraries host modtab => exact (returnedFrames_libraries host modtab s).trans hsame

theorem returnsOf_snoc (front : List Input) (i : Input) (s : State) :
    returnsOf (front ++ [i]) s = returnsOf front s ++ (i.returned (Input.run front s)).toList := by
  induction front generalizing s with
  | nil => exact List.append_nil _
  | cons j front ih =>
      rw [List.cons_append, returnsOf, returnsOf, ih, List.append_assoc]
      rfl

theorem returnedFrames_run {start : State} (h : start.returnedFrames = []) (inputs : List Input) :
    (Input.run inputs start).returnedFrames = (returnsOf inputs start).rtake 32 := by
  induction inputs using List.reverseRecOn with
  | nil => exact h
  | append_singleton front i ih =>
      have hlen : (Input.run front start).returnedFrames.length ≤ 32 := by
        rw [ih, List.rtake, List.length_drop]
        omega
      rw [Input.run_snoc, returnedFrames_apply hlen, returnsOf_snoc]
      cases i.returned (Input.run front start) with
      | none =>
          rw [Option.toList_none, List.append_nil, List.append_nil,
            RingLog.rtake_of_length_le hlen, ih]
      | some fid =>
          rw [ih]
          exact RingLog.rtake_rtake_append ..

/-- An engine without frames whose index holds globals that have nodes. -/
theorem FrameInv.start {s : State} (hframes : ∀ tid, s.framesOf tid = [])
    (hqueue : s.returnedFrames = []) (hdynamics : s.addrIndex.dynamics = [])
    (hlocals : ∀ fid li, s.world.nodes (.local fid li) = none)
    (hnoded : Noded s.addrIndex s.world) (htargeted : Targeted s.world) : FrameInv s := by
  refine ⟨fun tid f hf => ?_, fun fid hfid => ?_, fun f hf => ?_, fun fid li hnode => ?_, hnoded,
    htargeted⟩
  · rw [hframes] at hf
    cases hf
  · rw [hqueue] at hfid
    cases hfid
  · rw [hdynamics] at hf
    cases hf
  · rw [hlocals] at hnode
    cases hnode

theorem frameInv_started (host : Host) (dwarf : Option DwarfInfo) (topo : Topology) :
    FrameInv (State.started host dwarf topo) := by
  have htargeted : Targeted {} := fun _ _ he => by cases he
  cases dwarf with
  | none => exact .start (fun _ => rfl) rfl rfl (fun _ _ => rfl) (.empty _) htargeted
  | some info =>
      exact .start (fun _ => rfl) rfl (populateGlobals_dynamics info 0 {} {})
        (@Populates.globals _ (populates_locals fun _ => none) host info 0 {} {} fun _ _ => rfl)
        (populates_noded.globals host info 0 (.empty _))
        (@Populates.globals _ keeps_targeted.populates host info 0 {} {} htargeted)

theorem linked_started (host : Host) (dwarf : Option DwarfInfo) (topo : Topology) :
    Linked (State.started host dwarf topo).world := by
  have hlinked : Linked {} := ⟨fun _ _ he => (by cases he), fun _ _ he => (by cases he),
    fun _ _ he => (by cases he)⟩
  cases dwarf with
  | none => exact hlinked
  | some info => exact @Populates.globals _ keeps_linked.populates host info 0 {} {} hlinked

/-- After any run of the engine frames and edges are tidy. -/
theorem frames_and_edges_tidy (host : Host) (dwarf : Option DwarfInfo) (topo : Topology)
    (inputs : List Input) :
    Tidy (returnsOf inputs (State.started host dwarf topo))
      (Input.run inputs (State.started host dwarf topo)) := by
  have hinv : FrameInv (Input.run inputs (State.started host dwarf topo)) ∧
      Linked (Input.run inputs (State.started host dwarf topo)).world := by
    induction inputs using List.reverseRecOn with
    | nil => exact ⟨frameInv_started host dwarf topo, linked_started host dwarf topo⟩
    | append_singleton front i ih =>
        rw [Input.run_snoc]
        exact ⟨ih.1.apply i, linked_apply ih.2⟩
  have hstart : (State.started host dwarf topo).returnedFrames = [] := by
    cases dwarf <;> rfl
  exact hinv.1.tidy hinv.2 (returnedFrames_run hstart inputs)

end Run

end Rtmap.Engine
