import Rtmap.Engine.Steps

/-!
# Lines of a kind

Which lines of the topology stream the stages of an event add: the heap stages add
stamps, links and violations, and a hazard at their end; the lines of the drain
loop are added by no event.
-/
namespace Rtmap.Engine
open Rtmap.Ring

/-- The lines of the stream that `p` selects. -/
def State.linesOf (p : Line → Bool) (s : State) : Option (List Line) :=
  s.topo.map fun ls => ls.filter p

/-- A line that the stages of a write to the heap print before the bounds check. -/
def Line.ofHeap : Line → Bool
  | .stamp .. | .link .. | .typeViolation .. => true
  | _ => false

def Line.isHazard : Line → Bool
  | .hazard .. => true
  | _ => false

/-- A line that the stages at the written variable print. -/
def Line.ofNode : Line → Bool
  | .stamp .. | .link .. | .typeSchism .. | .typeEpochClose .. => true
  | _ => false

/-- A line that the drain loop prints itself. -/
def Line.ofLoop : Line → Bool
  | .processFork .. | .crossProcessWrite .. | .seqGap .. => true
  | _ => false

/-- The number of the event that the line is about. -/
def Line.number : Line → ℕ
  | .alloc seq .. | .free seq .. | .stamp seq .. | .link seq .. | .hazard seq .. => seq
  | .processFork seq .. | .crossProcessWrite seq .. | .seqGap seq .. => seq
  | .typeSchism seq .. | .typeViolation seq .. | .typeEpochClose seq .. => seq
  | .summary .. => 0

theorem Line.isHazard_of_ofHeap {l : Line} (h : l.ofHeap = true) : l.isHazard = false := by
  cases l <;> first | rfl | cases h

theorem Line.isHazard_of_ofNode {l : Line} (h : l.ofNode = true) : l.isHazard = false := by
  cases l <;> first | rfl | cases h

section Emit
variable {p : Line → Bool} {s : State} {l : Line}

theorem linesOf_emit_filter :
    (s.emit l).linesOf p = (s.linesOf p).map (· ++ [l].filter p) :=
  Topology.filter_emit p s.topo l

theorem linesOf_emit (h : p l = true) : (s.emit l).linesOf p = (s.linesOf p).map (· ++ [l]) := by
  rw [linesOf_emit_filter, List.filter_cons_of_pos h, List.filter_nil]

theorem linesOf_emit_of_not (h : p l = false) : (s.emit l).linesOf p = s.linesOf p := by
  rw [linesOf_emit_filter, List.filter_cons_of_neg (Bool.eq_false_iff.mp h), List.filter_nil]
  simp only [List.append_nil, Option.map_id']

end Emit

namespace Write
variable {p : Line → Bool} {host : Host} {ev : Event} {s : State}

theorem linesOf_observe : (observe ev s).linesOf p = s.linesOf p := by
  rw [observe]
  split
  · rfl
  · split <;> rfl

theorem linesOf_cohere (writers : UInt16) : (cohere ev writers s).linesOf p = s.linesOf p := by
  rw [cohere]
  split <;> rfl

theorem linesOf_fields (hp : ∀ l : Line, l.ofHeap = true → l.number = seqOf ev → p l = false) :
    (fields ev s).linesOf p = s.linesOf p := by
  have hcheck (q : TypeProjection) (s : State) : (checkFields ev q s).linesOf p = s.linesOf p := by
    rw [checkFields]
    split
    · rw [emitLastViolation]
      split
      · exact linesOf_emit_of_not (hp _ rfl rfl)
      · rfl
    · rfl
  have hlink (q : TypeProjection) (s : State) : (linkField ev q s).linesOf p = s.linesOf p := by
    rw [linkField]
    split
    · split
      · exact linesOf_emit_of_not (hp _ rfl rfl)
      · rfl
    · rfl
  rw [fields]
  split
  · rfl
  · rw [hlink, hcheck]

theorem linesOf_propagate (hp : ∀ l : Line, l.ofHeap = true → l.number = seqOf ev → p l = false) :
    (propagate host ev s).linesOf p = s.linesOf p := by
  have hstamp (addr : UInt64) (s : State) :
      (emitStamp (seqOf ev) addr s).linesOf p = s.linesOf p := by
    rw [emitStamp]
    split
    · exact linesOf_emit_of_not (hp _ rfl rfl)
    · rfl
  have hdeepen (info : DwarfInfo) (s : State) : (deepen host ev info s).linesOf p = s.linesOf p := by
    obtain ⟨f, hf⟩ := upgrade_eq ev s (ensured host ev info s)
    rw [deepen, hstamp]
    show (upgrade ev (ensured host ev info s) s).linesOf p = s.linesOf p
    rw [hf]
    rfl
  rw [propagate]
  split
  · rfl
  · dsimp only
    split
    · exact hdeepen _ _
    · split <;> rfl

theorem linesOf_bounds (hp : ∀ l : Line, l.isHazard = true → l.number = seqOf ev → p l = false) :
    (bounds ev s).linesOf p = s.linesOf p := by
  rw [bounds]
  split
  · split
    · rfl
    · split
      · rfl
      · exact linesOf_emit_of_not (hp _ rfl rfl)
  · rfl

theorem linesOf_heap (hp : ∀ l : Line, l.ofHeap = true → l.number = seqOf ev → p l = false)
    (hhazard : ∀ l : Line, l.isHazard = true → l.number = seqOf ev → p l = false) :
    (heap host ev s).linesOf p = s.linesOf p := by
  rw [heap]
  split
  · rw [linesOf_bounds hhazard, linesOf_propagate hp, linesOf_fields hp]
    rfl
  · rfl

theorem linesOf_stampVariable
    (hp : ∀ l : Line, l.ofNode = true → l.number = seqOf ev → p l = false) (name : String)
    (registry : Registry) (pointee : TypeInfo) :
    (stampVariable host ev name registry pointee s).linesOf p = s.linesOf p := by
  have hlog (old : OldStamp) (s : State) : (logSchism ev old s).linesOf p = s.linesOf p := by
    rw [logSchism]
    split <;> rfl
  have hclose (newType newSource : String) (reason : CloseReason) (old : OldStamp) (s : State) :
      (closeSchism ev newType newSource reason old s).linesOf p = s.linesOf p := by
    rw [closeSchism, linesOf_emit_of_not (hp _ rfl rfl), linesOf_emit_of_not (hp _ rfl rfl), hlog]
  have hreport (newType newSource : String) (r : StampResult) (s : State) :
      (report ev newType newSource r s).linesOf p = s.linesOf p := by
    cases r with
    | schism old => exact hclose ..
    | poolReuse old => exact hclose ..
    | _ => rfl
  have hspread (registry : Registry) (addr : UInt64) (seq : ℕ) (s : State) :
      (spread host registry addr seq s).linesOf p = s.linesOf p := rfl
  rw [stampVariable]
  split
  · rw [linesOf_emit_of_not (hp _ rfl rfl), hspread, hreport]
    rfl
  · exact hreport ..

theorem linesOf_node (hp : ∀ l : Line, l.ofNode = true → l.number = seqOf ev → p l = false) :
    (node host ev s).linesOf p = s.linesOf p := by
  have hpointee (name typeName : String) (s : State) :
      (stampPointee host ev name typeName s).linesOf p = s.linesOf p := by
    rw [stampPointee]
    split
    · rfl
    · dsimp only
      split
      · exact linesOf_stampVariable hp ..
      · rfl
  have hpointer (h : Interval) (s : State) : (pointer host ev h s).linesOf p = s.linesOf p := by
    rw [pointer]
    dsimp only
    split
    · rfl
    · rw [linesOf_emit_of_not (hp _ rfl rfl)]
      split
      · exact hpointee ..
      · rfl
  rw [node]
  split
  · rfl
  · split
    · exact hpointer ..
    · rfl

end Write

section Loop
variable {host : Host} {ev : Event} {s : State}

/-- The lines of the drain loop in the stream. -/
def State.loopLines (s : State) : Option (List Line) := s.linesOf Line.ofLoop

theorem loopLines_emit_of_not {l : Line} (h : l.ofLoop = false) :
    (s.emit l).loopLines = s.loopLines := linesOf_emit_of_not h

theorem loopLines_processWrite : (processWrite host ev s).loopLines = s.loopLines := by
  have hheap (l : Line) (h : l.ofHeap = true) (_ : l.number = seqOf ev) : l.ofLoop = false := by
    cases l <;> first | rfl | cases h
  have hnode (l : Line) (h : l.ofNode = true) (_ : l.number = seqOf ev) : l.ofLoop = false := by
    cases l <;> first | rfl | cases h
  have hhazard (l : Line) (h : l.isHazard = true) (_ : l.number = seqOf ev) :
      l.ofLoop = false := by
    cases l <;> first | rfl | cases h
  rw [processWrite, State.loopLines, Write.linesOf_node hnode, Write.linesOf_heap hheap hhazard,
    Write.linesOf_cohere, Write.linesOf_observe]
  rfl

theorem loopLines_closeEpoch (oldSize : UInt64) (reason : EpochClose) (line : CloseReason) :
    (Alloc.closeEpoch ev oldSize reason line s).loopLines = s.loopLines := by
  rw [Alloc.closeEpoch]
  split
  · rfl
  · exact loopLines_emit_of_not rfl

theorem loopLines_processAlloc : (processAlloc host ev s).loopLines = s.loopLines := by
  have htrack : (Alloc.track ev s).loopLines = s.loopLines := by
    rw [Alloc.track]
    split
    · rfl
    · rw [loopLines_emit_of_not rfl, Alloc.renew.eq_def]
      split
      · exact loopLines_closeEpoch ..
      · rfl
  have hbirth (s : State) : (Alloc.stampBirth host ev s).loopLines = s.loopLines := by
    rw [Alloc.stampBirth]
    split
    · dsimp only
      split
      · rfl
      · rw [Alloc.stampBlock]
        dsimp only
        split
        · exact loopLines_emit_of_not rfl
        · rfl
    · rfl
  rw [processAlloc, hbirth, htrack]

theorem loopLines_processFree : (processFree ev s).loopLines = s.loopLines := by
  rw [processFree]
  split
  · rw [loopLines_emit_of_not rfl]
    exact loopLines_closeEpoch ..
  · split
    · exact loopLines_closeEpoch ..
    · rfl

/-- No event prints a line of the loop. -/
theorem loopLines_processEvent : (processEvent host ev s).loopLines = s.loopLines := by
  rw [processEvent, processKind]
  split
  · exact loopLines_processWrite
  · rw [processCall]
    split <;> rfl
  · have hretire (fid : FrameId) (s : State) : (retireFrame fid s).loopLines = s.loopLines := by
      rw [retireFrame]
      split
      · split <;> rfl
      · rfl
    rw [processReturn]
    split
    · rfl
    · dsimp only
      split
      · rfl
      · exact hretire ..
  · rfl
  · rfl
  · rfl
  · exact loopLines_processAlloc
  · exact loopLines_processFree
  · rfl
  · rfl
  · rw [processModuleLoad]
    split <;> rfl
  · rfl
  · rfl
  · rfl
  · rfl

end Loop

end Rtmap.Engine
