import Rtmap.Engine.Freshness
import Rtmap.Engine.Variables

/-!
# Edges and values

A WRITE to a pointer variable records the value in the variable's node and in its
edge, the one with truncated values replaced by 0, the other as the event has it
and for eight-byte writes only. `edges_agree_iff` says in which runs the two agree.
-/
namespace Rtmap.Engine
open Rtmap.Ring Transition

/-- An edge is filed under its source, which has a node, and holds no null. -/
structure Linked (w : World) : Prop where
  source : ∀ id e, w.edges id = some e → e.source = id
  nonzero : ∀ id e, w.edges id = some e → e.ptrValue ≠ 0
  node : ∀ id e, w.edges id = some e → (w.nodes id).isSome

/-- Every edge holds the value of its source's node, and a pointer variable that is null
has no edge. -/
structure EdgesAgree (w : World) : Prop where
  value : ∀ id e n, w.edges id = some e → w.nodes e.source = some n → e.ptrValue = n.rawValue
  null : ∀ id n, w.nodes id = some n → n.typeInfo.isPointer = true → n.rawValue = 0 →
    w.edges id = none

/-- The edge and the node of one variable hold one value. -/
def Same (w : World) : Prop :=
  ∀ id e n, w.edges id = some e → w.nodes id = some n → e.ptrValue = n.rawValue

theorem edgesAgree_iff {w : World} (h : Linked w) : EdgesAgree w ↔ Same w := by
  constructor
  · intro hagree id e n he hn
    refine hagree.value id e n he ?_
    rw [h.source id e he]
    exact hn
  · intro hsame
    refine ⟨fun id e n he hn => ?_, fun id n hn _ hzero => ?_⟩
    · rw [h.source id e he] at hn
      exact hsame id e n he hn
    · cases he : w.edges id with
      | none => rfl
      | some e => exact absurd ((hsame id e n he hn).trans hzero) (h.nonzero id e he)

section Kept
variable {w : World}

/-- A new variable has no edge yet, and a renewed one no longer. -/
theorem linked_renewNode (h : Linked w) (replace : Bool) (id : NodeId) (name : String)
    (ti : TypeInfo) (addr size : UInt64) :
    Linked ((if replace then w.removeNode id else w).ensureNode id name ti addr size) := by
  have hedge (i : NodeId) (e : PointerEdge) (he : ((if replace then w.removeNode id else
      w).ensureNode id name ti addr size).edges i = some e) :
      w.edges i = some e ∧ ¬ (i = id ∧ replace = true) := by
    rw [edges_renewNode] at he
    split at he
    · cases he
    · exact ⟨he, by assumption⟩
  refine ⟨fun i e he => h.source i e (hedge i e he).1, fun i e he => h.nonzero i e (hedge i e he).1,
    fun i e he => ?_⟩
  rw [nodes_renewNode]
  split
  · rfl
  · exact h.node i e (hedge i e he).1

theorem same_renewNode (hlinked : Linked w) (h : Same w) (replace : Bool) (id : NodeId)
    (name : String) (ti : TypeInfo) (addr size : UInt64) :
    Same ((if replace then w.removeNode id else w).ensureNode id name ti addr size) := by
  intro i e n he hn
  rw [edges_renewNode] at he
  rw [nodes_renewNode] at hn
  split at he
  · cases he
  · rename_i hkept
    split at hn
    · rename_i hnew
      have hnone : w.nodes id = none := by
        rcases hnew.2 with hreplace | hnone
        · exact absurd ⟨hnew.1, hreplace⟩ hkept
        · exact hnone
      have hsome := hlinked.node i e he
      rw [hnew.1, hnone] at hsome
      cases hsome
    · exact h i e n he hn

theorem linked_removeFrameNodes (h : Linked w) (fid : FrameId) :
    Linked (w.removeFrameNodes fid) := by
  have hedge (i : NodeId) (e : PointerEdge) (he : (w.removeFrameNodes fid).edges i = some e) :
      w.edges i = some e ∧ ¬ w.isDead fid i = true := by
    rw [edges_removeFrameNodes] at he
    split at he
    · cases he
    · exact ⟨(Option.filter_eq_some_iff.mp he).1, by assumption⟩
  refine ⟨fun i e he => h.source i e (hedge i e he).1, fun i e he => h.nonzero i e (hedge i e he).1,
    fun i e he => ?_⟩
  rw [nodes_removeFrameNodes, if_neg (hedge i e he).2]
  exact h.node i e (hedge i e he).1

theorem same_removeFrameNodes (h : Same w) (fid : FrameId) : Same (w.removeFrameNodes fid) := by
  intro i e n he hn
  rw [edges_removeFrameNodes] at he
  rw [nodes_removeFrameNodes] at hn
  split at he
  · cases he
  · rename_i hlive
    rw [if_neg hlive] at hn
    exact h i e n (Option.filter_eq_some_iff.mp he).1 hn

end Kept

/-- The condition on a WRITE that hits a variable: eight bytes of a pointer variable are
not truncated, unless they are null; any other write records the value of the edge
that is there. -/
def RecordsEdge (host : Host) (ev : Event) (s : State) : Prop :=
  ∀ h, (s.addrIndex.lookup host.orders ev.addr).2 = some h →
    if h.typeInfo.isPointer && ev.size == 8 then ev.isTruncated = true → ev.value = 0
    else ∀ e, s.world.edges h.nodeId = some e → e.ptrValue = writeValue ev

section Write
variable {host : Host} {ev : Event} {s : State}

/-- The edges after a WRITE to a variable. -/
theorem edges_node_cases {h : Interval}
    (hfound : (s.addrIndex.lookup host.orders ev.addr).2 = some h) :
    (∀ i, i ≠ h.nodeId → (Write.node host ev s).world.edges i = s.world.edges i) ∧
      if h.typeInfo.isPointer && ev.size == 8 then
        (ev.value = 0 ∧ (Write.node host ev s).world.edges h.nodeId = none) ∨
          ev.value ≠ 0 ∧ ∃ e, (Write.node host ev s).world.edges h.nodeId = some e ∧
            e.source = h.nodeId ∧ e.ptrValue = ev.value ∧
            (e.isDangling = false → Write.pointee host ev s = some e.target)
      else (Write.node host ev s).world.edges h.nodeId = s.world.edges h.nodeId := by
  rw [Write.edges_node hfound]
  by_cases hpointer : (h.typeInfo.isPointer && ev.size == 8) = true
  · simp only [hpointer, if_true]
    refine ⟨fun i hi => edges_updateEdge_ne hi, ?_⟩
    by_cases hzero : ev.value = 0
    · refine .inl ⟨hzero, ?_⟩
      rw [Write.pointee_null hzero, hzero]
      exact edges_updateEdge_null
    · exact .inr ⟨hzero, edges_updateEdge_pointer _ hzero⟩
  · simp only [hpointer, Bool.false_eq_true, if_false]
    exact ⟨fun _ _ => trivial, trivial⟩

theorem linked_node (h : Linked s.world) : Linked (Write.node host ev s).world := by
  cases hfound : (s.addrIndex.lookup host.orders ev.addr).2 with
  | none =>
      rw [Write.node_of_none hfound]
      exact h
  | some iv =>
      obtain ⟨n, -, hnodes⟩ := Write.nodes_node hfound
      obtain ⟨hother, hown⟩ := edges_node_cases hfound
      -- the variable's edge is new, gone or the old one
      have hedge (e : PointerEdge) (he : (Write.node host ev s).world.edges iv.nodeId = some e) :
          e.source = iv.nodeId ∧ e.ptrValue ≠ 0 := by
        split at hown
        · rcases hown with ⟨-, hnone⟩ | ⟨hne, e', he', hsource, hvalue, -⟩
          · rw [hnone] at he
            cases he
          · rw [he'] at he
            obtain rfl := Option.some.inj he
            rw [hvalue]
            exact ⟨hsource, hne⟩
        · rw [hown] at he
          exact ⟨h.source _ e he, h.nonzero _ e he⟩
      refine ⟨fun i e he => ?_, fun i e he => ?_, fun i e he => ?_⟩
      · by_cases hi : i = iv.nodeId
        · subst hi
          exact (hedge e he).1
        · exact h.source i e (hother i hi ▸ he)
      · by_cases hi : i = iv.nodeId
        · subst hi
          exact (hedge e he).2
        · exact h.nonzero i e (hother i hi ▸ he)
      · rw [hnodes, Function.update_apply]
        split
        · rfl
        · rename_i hi
          exact h.node i e (hother i hi ▸ he)

/-- A WRITE keeps values and edges together exactly when it records the edge. -/
theorem same_node (h : Same s.world) :
    Same (Write.node host ev s).world ↔ RecordsEdge host ev s := by
  cases hfound : (s.addrIndex.lookup host.orders ev.addr).2 with
  | none =>
      rw [Write.node_of_none hfound, RecordsEdge, hfound]
      exact ⟨fun _ iv hiv => (by cases hiv), fun _ => h⟩
  | some iv =>
      obtain ⟨n, hn, hnodes⟩ := Write.nodes_node hfound
      obtain ⟨hother, hown⟩ := edges_node_cases hfound
      have hrest : Same (Write.node host ev s).world ↔
          ∀ e, (Write.node host ev s).world.edges iv.nodeId = some e →
            e.ptrValue = writeValue ev := by
        constructor
        · intro hsame e he
          rw [← hn]
          exact hsame iv.nodeId e n he (by rw [hnodes, Function.update_self])
        · intro hall i e m he hm
          rw [hnodes, Function.update_apply] at hm
          by_cases hi : i = iv.nodeId
          · subst hi
            rw [if_pos rfl] at hm
            obtain rfl := Option.some.inj hm
            exact (hall e he).trans hn.symm
          · rw [if_neg hi] at hm
            exact h i e m (hother i hi ▸ he) hm
      have hcond : RecordsEdge host ev s ↔
          if iv.typeInfo.isPointer && ev.size == 8 then ev.isTruncated = true → ev.value = 0
          else ∀ e, s.world.edges iv.nodeId = some e → e.ptrValue = writeValue ev := by
        rw [RecordsEdge, hfound]
        exact ⟨fun hall => hall iv rfl, fun hiv x hx => Option.some.inj hx ▸ hiv⟩
      rw [hrest, hcond]
      split
      · rename_i hpointer
        rw [if_pos hpointer] at hown
        rcases hown with ⟨hzero, hnone⟩ | ⟨hne, e, he, -, hvalue, -⟩
        · rw [hnone]
          exact ⟨fun _ _ => hzero, fun _ e he => by cases he⟩
        · rw [he]
          have hwrite : writeValue ev = if ev.isTruncated then 0 else ev.value := rfl
          constructor
          · intro hall htrunc
            rw [← hvalue, hall e rfl, hwrite, if_pos htrunc]
          · intro htrunc e' he'
            obtain rfl := Option.some.inj he'
            rw [hvalue, hwrite]
            split
            · rename_i ht
              exact htrunc ht
            · rfl
      · rename_i hpointer
        rw [if_neg hpointer] at hown
        rw [hown]

end Write

def Input.RecordsEdge : Input → State → Prop
  | .event host ev, s => kindOf ev = .write → Engine.RecordsEdge host ev s
  | _, _ => True

/-- A property of nodes and edges that new, renewed and retired variables keep. -/
structure Keeps (P : World → Prop) : Prop where
  renew : ∀ (replace : Bool) w id name ti addr size, P w →
    P ((if replace then w.removeNode id else w).ensureNode id name ti addr size)
  retire : ∀ w fid, P w → P (w.removeFrameNodes fid)
  graph : ∀ w v : World, v.nodes = w.nodes → v.edges = w.edges → P w → P v

theorem keeps_linked : Keeps Linked where
  renew replace _ id name ti addr size h := linked_renewNode h replace id name ti addr size
  retire _ fid h := linked_removeFrameNodes h fid
  graph w v hnodes hedges h := by
    obtain ⟨hsource, hnonzero, hnode⟩ := h
    rw [← hedges] at hsource hnonzero
    refine ⟨hsource, hnonzero, ?_⟩
    rw [hedges, hnodes]
    exact hnode

theorem keeps_linked_same : Keeps fun w => Linked w ∧ Same w where
  renew replace w id name ti addr size h :=
    ⟨keeps_linked.renew replace w id name ti addr size h.1,
      same_renewNode h.1 h.2 replace id name ti addr size⟩
  retire w fid h := ⟨keeps_linked.retire w fid h.1, same_removeFrameNodes h.2 fid⟩
  graph w v hnodes hedges h := by
    refine ⟨keeps_linked.graph w v hnodes hedges h.1, ?_⟩
    unfold Same
    rw [hedges, hnodes]
    exact h.2

namespace Keeps
variable {P : World → Prop} {host : Host} {ev : Event} {s : State}

theorem populates (h : Keeps P) : Populates fun _ w => P w where
  register replace _ _ addr size name ti id _ hP := h.renew replace _ id name ti addr size hP
  types _ w _ hP := h.graph w _ rfl rfl hP
  sort _ _ _ hP := hP

theorem enter (h : Keeps P) (f : FunctionMeta) (hP : P s.world) :
    P (Call.enter host ev f s).world := by
  have hfold (ls : List (LocalVar × ℕ)) (id : LocalVar × ℕ → NodeId)
      (addr : LocalVar × ℕ → UInt64) : ∀ w : World, P w → P (ls.foldl (fun w l =>
        w.ensureNode (id l) l.1.name l.1.typeInfo (addr l) l.1.size) w) := by
    induction ls with
    | nil => exact fun _ hw => hw
    | cons l ls ih => exact fun w hw => ih _ (h.renew false w _ _ _ _ _ hw)
  exact hfold _ _ _ _ hP

theorem retireFrame (h : Keeps P) (fid : FrameId) (hP : P s.world) :
    P (retireFrame fid s).world := by
  rw [Engine.retireFrame]
  split
  · split
    · exact h.retire _ _ hP
    · exact hP
  · exact hP

/-- All events but WRITEs keep it. -/
theorem processEvent (h : Keeps P) (hkind : kindOf ev ≠ .write) (hP : P s.world) :
    P (processEvent host ev s).world := by
  have hcount : P (countEvent s).world := h.graph s.world _ rfl rfl hP
  rw [Engine.processEvent, processKind]
  cases hev : kindOf ev with
  | write => exact absurd hev hkind
  | call =>
      dsimp only
      rw [processCall]
      split
      · exact h.enter _ hcount
      · exact hcount
  | ret =>
      dsimp only
      rw [processReturn]
      split
      · exact hcount
      · dsimp only
        split
        · exact hcount
        · exact h.retireFrame _ hcount
  | alloc =>
      obtain ⟨m, allocs, log, g, info, topo, heq⟩ := processAlloc_eq host ev (countEvent s)
      dsimp only
      rw [heq]
      exact h.graph s.world _ rfl rfl hP
  | free =>
      obtain ⟨m, allocs, log, g, topo, heq⟩ := processFree_eq ev (countEvent s)
      dsimp only
      rw [heq]
      exact h.graph s.world _ rfl rfl hP
  | moduleLoad =>
      dsimp only
      rw [processModuleLoad]
      split
      · exact @Populates.globals _ h.populates host _ _ {} _ hcount
      · exact hcount
  | _ => exact h.graph s.world _ rfl rfl hP

end Keeps

section Apply
variable {i : Input} {s : State}

theorem linked_apply (h : Linked s.world) : Linked (i.apply s).world := by
  cases i with
  | event host ev =>
      by_cases hkind : kindOf ev = .write
      · have hevent : (Input.event host ev).apply s =
            Write.node host ev (beforeNode host ev s) := processEvent_write host ev s hkind
        obtain ⟨g, m, hs, vs, info, regs, topo, hbefore⟩ := beforeNode_eq host ev s
        rw [hevent]
        refine linked_node ?_
        rw [hbefore]
        exact keeps_linked.graph s.world _ rfl rfl h
      · exact keeps_linked.processEvent hkind h
  | snapshot u => exact keeps_linked.graph s.world _ rfl rfl h
  | libraries host modtab => exact keeps_linked.populates.libGlobals host modtab h

/-- An input keeps values and edges together exactly when it records the edge. -/
theorem same_apply (hlinked : Linked s.world) (h : Same s.world) :
    Same (i.apply s).world ↔ i.RecordsEdge s := by
  cases i with
  | event host ev =>
      by_cases hkind : kindOf ev = .write
      · have hevent : (Input.event host ev).apply s =
            Write.node host ev (beforeNode host ev s) := processEvent_write host ev s hkind
        obtain ⟨g, m, hs, vs, info, regs, topo, hbefore⟩ := beforeNode_eq host ev s
        have hb : Same (beforeNode host ev s).world := by
          rw [hbefore]
          exact (keeps_linked_same.graph s.world _ rfl rfl ⟨hlinked, h⟩).2
        have hcond : RecordsEdge host ev (beforeNode host ev s) ↔ RecordsEdge host ev s := by
          rw [hbefore]
          rfl
        rw [hevent, same_node hb, hcond]
        exact ⟨fun hr _ => hr, fun hr => hr hkind⟩
      · have hkept := @Keeps.processEvent _ host ev s keeps_linked_same hkind ⟨hlinked, h⟩
        exact ⟨fun _ hwrite => absurd hwrite hkind, fun _ => hkept.2⟩
  | snapshot u =>
      have hkept := keeps_linked_same.graph s.world (applySnapshotUpdate u s).world rfl rfl
        ⟨hlinked, h⟩
      exact ⟨fun _ => trivial, fun _ => hkept.2⟩
  | libraries host modtab =>
      have hkept := keeps_linked_same.populates.libGlobals host modtab ⟨hlinked, h⟩
      exact ⟨fun _ => trivial, fun _ => hkept.2⟩

end Apply

/-- The state without edges, as before the first event. -/
def unlinked (s : State) : State := { s with world := { s.world with edges := fun _ => none } }

theorem Input.run_snoc (front : List Input) (i : Input) (s : State) :
    Input.run (front ++ [i]) s = i.apply (Input.run front s) := by
  rw [Input.run, List.foldl_append]
  rfl

theorem linked_run (start : State) (inputs : List Input) :
    Linked (Input.run inputs (unlinked start)).world := by
  induction inputs using List.reverseRecOn with
  | nil =>
      exact ⟨fun _ _ he => (by cases he), fun _ _ he => (by cases he),
        fun _ _ he => (by cases he)⟩
  | append_singleton front i ih =>
      rw [Input.run_snoc]
      exact linked_apply ih

/-- Edges and values agree all along a run if and only if every WRITE of it that hits a
variable records the edge. -/
theorem edges_agree_iff (start : State) (inputs : List Input) :
    (∀ front, front <+: inputs → EdgesAgree (Input.run front (unlinked start)).world) ↔
      ∀ front i, front ++ [i] <+: inputs → i.RecordsEdge (Input.run front (unlinked start)) := by
  simp only [edgesAgree_iff (linked_run start _)]
  refine forall_prefix_iff (P := fun front => Same (Input.run front (unlinked start)).world) ?_
    (fun front i h => ?_) inputs
  · intro id e n he
    cases he
  · rw [Input.run_snoc]
    exact same_apply (linked_run start front) h

/-- A variable's value and the pointer its edge holds. -/
def World.valueAndEdge (w : World) (id : NodeId) : Option UInt64 × Option UInt64 :=
  ((w.nodes id).map Node.rawValue, (w.edges id).map PointerEdge.ptrValue)

/-- The address of a block goes to a pointer variable, then only the low half of the
variable is written, then a truncated write comes. -/
def partialWrites : List Input :=
  [.event .plain (plainEvent EVENT_WRITE 0x4000 0x20000),
    .event .plain { plainEvent EVENT_WRITE 0x4000 0x30000 with size := 4 },
    .event .plain { plainEvent EVENT_WRITE 0x4000 0x40000 with
      kindFlags := makeKf EVENT_WRITE FLAG_TRUNCATED 0 }]

/-- The second write changes the value and leaves the edge, the third changes the edge
to what it does not record. -/
theorem partial_writes_disagree :
    ¬ (∀ front, front <+: partialWrites →
      EdgesAgree (Input.run front (unlinked twoVariables)).world) ∧
    (Input.run (partialWrites.take 2) (unlinked twoVariables)).world.valueAndEdge (.global 0) =
      (some 0x30000, some 0x20000) ∧
    (Input.run partialWrites (unlinked twoVariables)).world.valueAndEdge (.global 0) =
      (some 0, some 0x40000) := by
  have hlow : (Input.run (partialWrites.take 2) (unlinked twoVariables)).world.valueAndEdge
      (.global 0) = (some 0x30000, some 0x20000) := by
    decide +kernel
  refine ⟨fun hall => ?_, hlow, by decide +kernel⟩
  have hagree := hall (partialWrites.take 2) (List.take_prefix _ _)
  have hsame := (edgesAgree_iff (linked_run twoVariables _)).mp hagree
  obtain ⟨hvalue, hedge⟩ := Prod.mk.inj hlow
  obtain ⟨n, hn, hraw⟩ := Option.map_eq_some_iff.mp hvalue
  obtain ⟨e, he, hptr⟩ := Option.map_eq_some_iff.mp hedge
  have heq := hsame _ e n he hn
  rw [hraw, hptr] at heq
  exact absurd heq (by decide)

end Rtmap.Engine
