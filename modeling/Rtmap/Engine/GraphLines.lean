import Rtmap.Engine.BlockLines

/-!
# Lines of the graph

The STAMP and LINK lines that an event adds to the stream, stage by stage. A WRITE adds a
link for the pointer field it stores to, a stamp for the object it makes the field's
pointee, a stamp and a link for a pointer variable; an ALLOC adds a stamp at birth; no
other event adds one.
-/
namespace Rtmap.Engine
open Rtmap.Ring

def Line.isGraph : Line → Bool
  | .stamp .. | .link .. => true
  | _ => false

/-- The graph lines in the stream. -/
def State.drawn (s : State) : Option (List Line) := s.linesOf Line.isGraph

/-- The graph lines of `t` are those of `s` and these. -/
def Draws (s t : State) (ls : List Line) : Prop := t.drawn = s.drawn.map fun gs => gs ++ ls

section Draws
variable {s t u : State} {ls ls' : List Line}

theorem draws_nil (h : t.drawn = s.drawn) : Draws s t [] := by
  rw [Draws, h]
  simp

theorem Draws.trans (h : Draws s t ls) (h' : Draws t u ls') : Draws s u (ls ++ ls') := by
  rw [Draws, h', h, Option.map_map]
  congr 1
  funext gs
  exact List.append_assoc ..

/-- A stage that adds none, before one that adds some. -/
theorem Draws.after (h : t.drawn = s.drawn) (h' : Draws t u ls) : Draws s u ls :=
  (draws_nil h).trans h'

/-- A stage that adds none, behind one that adds some. -/
theorem Draws.before (h : Draws s t ls) (h' : u.drawn = t.drawn) : Draws s u ls := by
  rw [Draws, h', h]

theorem draws_emit {l : Line} (h : l.isGraph = true) : Draws s (s.emit l) [l] :=
  linesOf_emit h

theorem drawn_emit_of_not {l : Line} (h : l.isGraph = false) : (s.emit l).drawn = s.drawn :=
  linesOf_emit_of_not h

end Draws

namespace Write

/-- The covering projection and the pointer field of it that a heap store goes to. -/
def linkedField (ev : Event) (s : State) : Option (TypeProjection × FieldInfo) :=
  if s.heapOracle.isHeap ev.addr ∧ ev.size = 8 ∧ writeValue ev ≠ 0 then
    (s.world.stm.covering ev.addr).bind fun p =>
      (p.typeInfo.fields.find? fun f =>
        f.byteOffset == ev.addr - p.baseAddr && f.typeInfo.isPointer).map fun f => (p, f)
  else none

def fieldLink (ev : Event) (x : TypeProjection × FieldInfo) : Line :=
  .link (seqOf ev) x.1.typeInfo.name ev.addr (writeValue ev)
    ((stripPointer x.2.typeInfo.name).getD x.2.typeInfo.name) x.2.name

def fieldLinks (ev : Event) (s : State) : List Line :=
  (linkedField ev s).toList.map (fieldLink ev)

/-- The line of the projection at an address. -/
def stampLines (seq : ℕ) (addr : UInt64) (m : ShadowTypeMap) : List Line :=
  (m.lookup addr).toList.map fun p =>
    .stamp seq addr p.typeInfo.name p.typeInfo.byteSize p.sourceName p.typeInfo.fields.length

/-- The state in which a written pointer is propagated. -/
def beforePropagate (ev : Event) (s : State) : State :=
  fields ev (graph ev (registered ev (countEvent s)))

/-- A pointer that the field's type stamps: the line of its projection. -/
def propagateLines (host : Host) (ev : Event) (s : State) : List Line :=
  match s.dwarfInfo with
  | none => []
  | some info =>
      if (s.world.stm.propagateFieldWrite ev.addr (writeValue ev) ev.size (seqOf ev)
          info.typeRegistry s.world.heapAllocs).2 then
        stampLines (seqOf ev) (writeValue ev) (propagate host ev s).world.stm
      else []

def heapLines (host : Host) (ev : Event) (s : State) : List Line :=
  if s.heapOracle.isHeap ev.addr then
    fieldLinks ev s ++ propagateLines host ev (beforePropagate ev s)
  else []

/-- A heap pointer that a variable's type stamps. -/
def variableStamps (host : Host) (ev : Event) (h : Interval) (s : State) : List Line :=
  match s.dwarfInfo with
  | none => []
  | some info =>
      match pointeeType host h.typeInfo.name (pointeeInfo host h.typeInfo.name info) with
      | none => []
      | some pointee =>
          if (s.world.stm.stampType ev.value pointee h.name (seqOf ev)).2.applied then
            [.stamp (seqOf ev) ev.value pointee.name pointee.byteSize h.name pointee.fields.length]
          else []

def variableLink (ev : Event) (h : Interval) : Line :=
  .link (seqOf ev) h.name ev.addr ev.value
    ((stripPointer h.typeInfo.name).getD h.typeInfo.name) h.name

def pointerLines (host : Host) (ev : Event) (h : Interval) (s : State) : List Line :=
  if ev.value = 0 then []
  else
    (if s.heapOracle.isHeap ev.value then variableStamps host ev h s else []) ++
      [variableLink ev h]

def nodeLines (host : Host) (ev : Event) (s : State) : List Line :=
  match (s.addrIndex.lookup host.orders ev.addr).2 with
  | none => []
  | some h =>
      if h.typeInfo.isPointer && ev.size == 8 then pointerLines host ev h s else []

variable {host : Host} {ev : Event} {s : State}

/-- Up to the heap stages neither the projections nor the stream change. -/
theorem registered_same (ev : Event) (s : State) :
    (graph ev (registered ev (countEvent s))).drawn = s.drawn ∧
      linkedField ev (graph ev (registered ev (countEvent s))) = linkedField ev s := by
  obtain ⟨regs, hregistered⟩ := registered_eq ev (countEvent s)
  rw [hregistered]
  exact ⟨rfl, rfl⟩

theorem draws_fields (ev : Event) (s : State) (hheap : s.heapOracle.isHeap ev.addr = true) :
    Draws s (fields ev s) (fieldLinks ev s) := by
  have hcheck (p : TypeProjection) (t : State) : (checkFields ev p t).drawn = t.drawn := by
    rw [checkFields]
    split
    · rw [emitLastViolation]
      split
      · exact drawn_emit_of_not rfl
      · rfl
    · rfl
  rw [fields, fieldLinks, linkedField]
  cases s.world.stm.covering ev.addr with
  | none =>
      simp only [Option.bind_none, ite_self]
      exact draws_nil rfl
  | some p =>
      dsimp only
      refine .after (hcheck p s) ?_
      rw [linkField]
      by_cases hstore : ev.size = 8 ∧ writeValue ev ≠ 0
      · rw [if_pos hstore, if_pos ⟨hheap, hstore⟩, Option.bind_some]
        cases p.typeInfo.fields.find? fun f =>
            f.byteOffset == ev.addr - p.baseAddr && f.typeInfo.isPointer with
        | none => exact draws_nil rfl
        | some f => exact draws_emit rfl
      · rw [if_neg hstore, if_neg fun h => hstore h.2]
        exact draws_nil rfl

theorem draws_propagate : Draws s (propagate host ev s) (propagateLines host ev s) := by
  have hdeepen (info : DwarfInfo) (t : State) : Draws t (deepen host ev info t)
      (stampLines (seqOf ev) (writeValue ev) (deepen host ev info t).world.stm) := by
    obtain ⟨f, hf⟩ := upgrade_eq ev t (ensured host ev info t)
    rw [deepen, hf, emitStamp]
    split
    · rename_i p hp
      rw [stm_emit, stampLines, hp]
      exact draws_emit rfl
    · rename_i hp
      rw [stampLines, hp]
      exact draws_nil rfl
  rw [propagateLines]
  cases hinfo : s.dwarfInfo with
  | none =>
      rw [propagate, hinfo]
      exact draws_nil rfl
  | some info =>
      dsimp only
      split
      · rename_i hstamped
        have hpropagate : propagate host ev s = deepen host ev info (s.withStm fun _ =>
            (s.world.stm.propagateFieldWrite ev.addr (writeValue ev) ev.size (seqOf ev)
              info.typeRegistry s.world.heapAllocs).1) := by
          rw [propagate, hinfo]
          dsimp only
          rw [if_pos hstamped]
        rw [hpropagate]
        exact hdeepen info _
      · rename_i hstamped
        apply draws_nil
        rw [propagate, hinfo]
        dsimp only
        rw [if_neg hstamped]
        split <;> rfl

theorem drawn_bounds : (bounds ev s).drawn = s.drawn :=
  linesOf_bounds fun l hl _ => by cases l <;> first | rfl | cases hl

theorem draws_beforeNode (host : Host) (ev : Event) (s : State) :
    Draws s (beforeNode host ev s) (heapLines host ev s) := by
  obtain ⟨hdrawn, hfield⟩ := registered_same ev s
  have hheap : (registered ev (countEvent s)).heapOracle.isHeap ev.addr =
      s.heapOracle.isHeap ev.addr := by
    obtain ⟨regs, hregistered⟩ := registered_eq ev (countEvent s)
    rw [hregistered]
    rfl
  have hbefore : beforeNode host ev s = heap host ev (registered ev (countEvent s)) := rfl
  rw [hbefore, heap, heapLines, hheap]
  split
  · rename_i h
    have hfields := draws_fields ev (graph ev (registered ev (countEvent s))) (hheap.trans h)
    rw [fieldLinks, hfield] at hfields
    exact ((Draws.after hdrawn hfields).trans draws_propagate).before drawn_bounds
  · exact draws_nil hdrawn

theorem draws_stampPointee (h : Interval) :
    Draws s (stampPointee host ev h.name h.typeInfo.name s) (variableStamps host ev h s) := by
  have hlog (old : OldStamp) (t : State) : (logSchism ev old t).drawn = t.drawn := by
    rw [logSchism]
    split <;> rfl
  have hreport (newType newSource : String) (r : StampResult) (t : State) :
      (report ev newType newSource r t).drawn = t.drawn := by
    have hclose (reason : CloseReason) (old : OldStamp) :
        (closeSchism ev newType newSource reason old t).drawn = t.drawn := by
      rw [closeSchism, drawn_emit_of_not rfl, drawn_emit_of_not rfl, hlog]
    cases r with
    | schism old => exact hclose ..
    | poolReuse old => exact hclose ..
    | _ => rfl
  rw [stampPointee, variableStamps]
  cases s.dwarfInfo with
  | none => exact draws_nil rfl
  | some info =>
      dsimp only
      cases pointeeType host h.typeInfo.name (pointeeInfo host h.typeInfo.name info) with
      | none => exact draws_nil rfl
      | some pointee =>
          dsimp only
          rw [stampVariable]
          dsimp only
          split
          · refine .after ?_ (draws_emit rfl)
            exact hreport ..
          · exact draws_nil (hreport ..)

theorem draws_node : Draws s (node host ev s) (nodeLines host ev s) := by
  have hpointer (h : Interval) (t : State) :
      Draws t (pointer host ev h t) (pointerLines host ev h t) := by
    rw [pointer, pointerLines]
    dsimp only
    split
    · exact draws_nil rfl
    · refine .trans (t := if (edge host ev h t).heapOracle.isHeap ev.value then
        stampPointee host ev h.name h.typeInfo.name (edge host ev h t) else edge host ev h t) ?_
        (draws_emit rfl)
      show Draws t (if t.heapOracle.isHeap ev.value then _ else _) _
      split
      · exact .after rfl (draws_stampPointee h)
      · exact draws_nil rfl
  have hvalue (h : Interval) (t : State) :
      pointerLines host ev h (value ev h t) = pointerLines host ev h t := by
    rw [pointerLines, pointerLines, variableStamps, variableStamps, stm_value]
    rfl
  rw [node, nodeLines]
  cases (s.addrIndex.lookup host.orders ev.addr).2 with
  | none => exact draws_nil rfl
  | some h =>
      dsimp only
      split
      · rw [← hvalue h s]
        exact .after rfl (hpointer h (value ev h
          { s with addrIndex := (s.addrIndex.lookup host.orders ev.addr).1 }))
      · exact draws_nil rfl

end Write

namespace Alloc
variable {host : Host} {ev : Event} {s : State}

/-- The stamp of a block at birth. -/
def birthLines (host : Host) (ev : Event) (s : State) : List Line :=
  match s.dwarfInfo, s.relocationDelta with
  | some info, some delta =>
      let pcs := callerPcs ev info delta (s.framesOf ev.threadId)
      match info.allocOracle.resolve (size ev) pcs with
      | none => []
      | some ti =>
          let ti := birthType host (info.ensureType host.deep ti.name) ti
          if (s.world.stm.stampType ev.addr ti (sourceName pcs) (seqOf ev)).2.applied then
            [.stamp (seqOf ev) ev.addr ti.name ti.byteSize (sourceName pcs) ti.fields.length]
          else []
  | _, _ => []

theorem draws_stampBirth : Draws s (stampBirth host ev s) (birthLines host ev s) := by
  rw [stampBirth.eq_def, birthLines.eq_def]
  cases s.dwarfInfo with
  | none => exact draws_nil rfl
  | some info =>
      cases s.relocationDelta with
      | none => exact draws_nil rfl
      | some delta =>
          dsimp only
          cases info.allocOracle.resolve (size ev)
              (callerPcs ev info delta (s.framesOf ev.threadId)) with
          | none => exact draws_nil rfl
          | some ti =>
              dsimp only
              rw [stampBlock]
              dsimp only
              split
              · exact .after rfl (draws_emit rfl)
              · exact draws_nil rfl

end Alloc

/-- The graph lines that an event adds. -/
def graphLines (host : Host) (ev : Event) (s : State) : List Line :=
  match kindOf ev with
  | .write => Write.heapLines host ev s ++ Write.nodeLines host ev (beforeNode host ev s)
  | .alloc => Alloc.birthLines host ev (Alloc.track ev (countEvent s))
  | _ => []

/-- The graph lines of an event. -/
theorem draws_processEvent (host : Host) (ev : Event) (s : State) :
    Draws s (processEvent host ev s) (graphLines host ev s) := by
  have hclose (oldSize : UInt64) (reason : EpochClose) (line : CloseReason) (t : State) :
      (Alloc.closeEpoch ev oldSize reason line t).drawn = t.drawn := by
    rw [Alloc.closeEpoch]
    split
    · rfl
    · exact drawn_emit_of_not rfl
  cases hkind : kindOf ev with
  | write =>
      rw [processEvent_write host ev s hkind, graphLines, hkind]
      exact (Write.draws_beforeNode host ev s).trans Write.draws_node
  | alloc =>
      have htrack (t : State) : (Alloc.track ev t).drawn = t.drawn := by
        rw [Alloc.track]
        split
        · rfl
        · rw [drawn_emit_of_not rfl, Alloc.renew.eq_def]
          split
          · exact hclose ..
          · rfl
      simp only [processEvent, processKind, hkind, graphLines, processAlloc]
      exact .after (htrack (countEvent s)) Alloc.draws_stampBirth
  | free =>
      simp only [processEvent, processKind, hkind, graphLines, processFree]
      apply draws_nil
      split
      · rw [drawn_emit_of_not rfl]
        exact hclose ..
      · split
        · exact hclose ..
        · rfl
  | call =>
      simp only [processEvent, processKind, hkind, graphLines, processCall]
      apply draws_nil
      split <;> rfl
  | ret =>
      have hretire (fid : FrameId) (t : State) : (retireFrame fid t).drawn = t.drawn := by
        rw [retireFrame]
        split
        · split <;> rfl
        · rfl
      simp only [processEvent, processKind, hkind, graphLines, processReturn]
      apply draws_nil
      split
      · rfl
      · split
        · rfl
        · exact hretire ..
  | moduleLoad =>
      simp only [processEvent, processKind, hkind, graphLines, processModuleLoad]
      apply draws_nil
      split <;> rfl
  | _ =>
      simp only [processEvent, processKind, hkind, graphLines]
      exact draws_nil rfl

end Rtmap.Engine
