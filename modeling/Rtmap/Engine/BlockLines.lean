import Rtmap.Engine.LastStamp

/-!
# Lines of the blocks

The ALLOC and FREE lines of the stream. An address is tracked exactly if its last line
of the two is an ALLOC, so each FREE line follows an ALLOC line of its address; an ALLOC
line may follow another one, where a tracked block changes its size.
-/
namespace Rtmap.Engine
open Rtmap.Ring

def Line.isBlock : Line → Bool
  | .alloc .. | .free .. => true
  | _ => false

/-- The block lines that an event adds. -/
def blockLines (ev : Event) (t : HeapAllocTracker) : List Line :=
  match kindOf ev with
  | .alloc =>
      if t.allocSize ev.addr = some (Alloc.size ev) then []
      else [.alloc (seqOf ev) ev.threadId ev.addr (Alloc.size ev)]
  | .free =>
      match t.allocSize ev.addr with
      | some size => [.free (seqOf ev) ev.threadId ev.addr size]
      | none => []
  | _ => []

section Events
variable {host : Host} {ev : Event} {s : State}

theorem linesOf_closeEpoch {p : Line → Bool} (oldSize : UInt64) (reason : EpochClose)
    (line : CloseReason)
    (hp : ∀ l : Line, l.ofNode = true → l.number = seqOf ev → p l = false) :
    (Alloc.closeEpoch ev oldSize reason line s).linesOf p = s.linesOf p := by
  rw [Alloc.closeEpoch]
  split
  · rfl
  · exact linesOf_emit_of_not (hp _ rfl rfl)

theorem linesOf_stampBirth {p : Line → Bool}
    (hp : ∀ l : Line, l.ofNode = true → l.number = seqOf ev → p l = false) :
    (Alloc.stampBirth host ev s).linesOf p = s.linesOf p := by
  rw [Alloc.stampBirth]
  split
  · dsimp only
    split
    · rfl
    · rw [Alloc.stampBlock]
      dsimp only
      split
      · exact linesOf_emit_of_not (hp _ rfl rfl)
      · rfl
  · rfl

/-- The lines that an event adds are its block lines and lines that carry its number. -/
theorem linesOf_processEvent {p : Line → Bool}
    (hp : ∀ l : Line, (l.ofHeap = true ∨ l.isHazard = true ∨ l.ofNode = true) →
      l.number = seqOf ev → p l = false) :
    (processEvent host ev s).linesOf p =
      (s.linesOf p).map (· ++ (blockLines ev s.world.heapAllocs).filter p) := by
  have hnode (l : Line) (h : l.ofNode = true) : l.number = seqOf ev → p l = false :=
    hp l (.inr (.inr h))
  have hnone {t : State} (h : t.linesOf p = s.linesOf p) :
      t.linesOf p = (s.linesOf p).map (· ++ [].filter p) := by
    rw [h]
    simp
  rw [processEvent, processKind, blockLines]
  cases kindOf ev with
  | write =>
      apply hnone
      rw [processWrite, Write.linesOf_node hnode,
        Write.linesOf_heap (fun l h => hp l (.inl h)) (fun l h => hp l (.inr (.inl h))),
        Write.linesOf_cohere, Write.linesOf_observe]
      rfl
  | call =>
      apply hnone
      simp only [processCall]
      split <;> rfl
  | ret =>
      apply hnone
      have hretire (fid : FrameId) (t : State) :
          (retireFrame fid t).linesOf p = t.linesOf p := by
        rw [retireFrame]
        split
        · split <;> rfl
        · rfl
      simp only [processReturn]
      split
      · rfl
      · split
        · rfl
        · exact hretire ..
  | alloc =>
      have hrecord : (Alloc.record ev (countEvent s)).2 = s.world.heapAllocs.allocSize ev.addr := rfl
      have hlines : (Alloc.record ev (countEvent s)).1.linesOf p = s.linesOf p := rfl
      have hrenew (old : Option UInt64) (t : State) :
          (Alloc.renew ev old t).linesOf p = t.linesOf p := by
        rw [Alloc.renew.eq_def]
        split
        · exact linesOf_closeEpoch _ _ _ hnode
        · rfl
      rw [processAlloc, linesOf_stampBirth hnode, Alloc.track]
      dsimp only
      rw [hrecord]
      split
      · exact hnone hlines
      · rw [linesOf_emit_filter, hrenew, hlines]
  | free =>
      have hfreed : ((countEvent s).world.heapAllocs.onFree ev.addr).2 =
        s.world.heapAllocs.allocSize ev.addr := rfl
      simp only [processFree, hfreed]
      cases s.world.heapAllocs.allocSize ev.addr with
      | some size =>
          rw [linesOf_emit_filter]
          congr 1
          exact linesOf_closeEpoch _ _ _ hnode
      | none =>
          apply hnone
          dsimp only
          split
          · exact linesOf_closeEpoch _ _ _ hnode
          · rfl
  | moduleLoad =>
      apply hnone
      simp only [processModuleLoad]
      split <;> rfl
  | _ => exact hnone rfl

theorem filter_blockLines (t : HeapAllocTracker) :
    (blockLines ev t).filter Line.isBlock = blockLines ev t := by
  rw [blockLines]
  split
  · split <;> rfl
  · split <;> rfl
  · rfl

theorem number_of_mem_blockLines {t : HeapAllocTracker} {l : Line} (h : l ∈ blockLines ev t) :
    l.number = seqOf ev := by
  rw [blockLines] at h
  split at h
  · split at h
    · cases h
    · rw [List.mem_singleton.mp h]
      rfl
  · split at h
    · rw [List.mem_singleton.mp h]
      rfl
    · cases h
  · cases h

/-- The block lines in the stream. -/
def State.blocks (s : State) : Option (List Line) := s.linesOf Line.isBlock

/-- The block lines of an event. -/
theorem blocks_processEvent : (processEvent host ev s).blocks =
    s.blocks.map (· ++ blockLines ev s.world.heapAllocs) := by
  have hother (l : Line) (h : l.ofHeap = true ∨ l.isHazard = true ∨ l.ofNode = true)
      (_ : l.number = seqOf ev) : l.isBlock = false := by
    cases l <;> first | rfl | simp [Line.ofHeap, Line.isHazard, Line.ofNode] at h
  rw [State.blocks, linesOf_processEvent hother, filter_blockLines]
  rfl

/-- The lines of an event carry its number. -/
theorem number_processEvent {n : ℕ} (hn : n ≠ seqOf ev) :
    (processEvent host ev s).linesOf (fun l => l.number = n) = s.linesOf fun l => l.number = n := by
  rw [linesOf_processEvent fun l _ hl => by simpa [hl] using hn.symm]
  have hnone : (blockLines ev s.world.heapAllocs).filter (fun l => l.number = n) = [] := by
    rw [List.filter_eq_nil_iff]
    intro l hl
    simpa [number_of_mem_blockLines hl] using hn.symm
  rw [hnone]
  simp

end Events

/-- `live_count`. -/
def HeapAllocTracker.liveCount (t : HeapAllocTracker) : ℕ := t.allocs.entries.length

/-- An ALLOC of a tracked address that changes the size of the block. -/
def Resizes (ev : Event) (t : HeapAllocTracker) : Prop :=
  kindOf ev = .alloc ∧ ∃ size, t.allocSize ev.addr = some size ∧ size ≠ Alloc.size ev

instance (ev : Event) (t : HeapAllocTracker) : Decidable (Resizes ev t) :=
  inferInstanceAs (Decidable (_ ∧ _))

section Books

/-- Whether the last block line of the address is an ALLOC, after one more line. -/
def nextBlock (addr : UInt64) (tracked : Bool) : Line → Bool
  | .alloc _ _ a _ => tracked || a == addr
  | .free _ _ a _ => tracked && a != addr
  | _ => tracked

/-- Whether the last block line of the address is an ALLOC. -/
def lastBlock (addr : UInt64) (ls : List Line) : Bool := ls.foldl (nextBlock addr) false

theorem lastBlock_snoc (addr : UInt64) (ls : List Line) (l : Line) :
    lastBlock addr (ls ++ [l]) = nextBlock addr (lastBlock addr ls) l := by
  rw [lastBlock, List.foldl_append]
  rfl

/-- Lines of which each FREE follows an ALLOC of its address. -/
inductive FreesTracked : List Line → Prop
  | nil : FreesTracked []
  | snoc {ls : List Line} {l : Line} (h : FreesTracked ls)
      (hl : ∀ seq tid addr size, l = .free seq tid addr size → lastBlock addr ls = true) :
      FreesTracked (ls ++ [l])

/-- The block lines say what the tracker knows. -/
structure Booked (t : HeapAllocTracker) (ls : List Line) : Prop where
  tracked : ∀ addr, lastBlock addr ls = (t.allocSize addr).isSome
  frees : FreesTracked ls

variable {t : HeapAllocTracker} {ls : List Line}

/-- The tracker after an event. -/
def nextTracker (ev : Event) (t : HeapAllocTracker) : HeapAllocTracker :=
  match kindOf ev with
  | .alloc => (t.onAlloc ev.addr (Alloc.size ev)).1
  | .free => (t.onFree ev.addr).1
  | _ => t

theorem allocSize_onAlloc (t : HeapAllocTracker) (addr size addr' : UInt64) :
    ((t.onAlloc addr size).1.allocSize addr').isSome =
      ((t.allocSize addr').isSome || addr == addr') := by
  simp only [HeapAllocTracker.allocSize, HeapAllocTracker.onAlloc, SortedMap.get?_insert,
    Option.isSome_map]
  by_cases h : addr' = addr
  · simp [h]
  · simp [h, Ne.symm h]

theorem allocSize_onFree (t : HeapAllocTracker) (addr addr' : UInt64) :
    ((t.onFree addr).1.allocSize addr').isSome =
      ((t.allocSize addr').isSome && addr != addr') := by
  simp only [HeapAllocTracker.allocSize, HeapAllocTracker.onFree, SortedMap.get?_erase,
    Option.isSome_map]
  by_cases h : addr' = addr
  · simp [h]
  · simp [h, Ne.symm h]

/-- An event keeps the books. -/
theorem Booked.next (h : Booked t ls) (ev : Event) :
    Booked (nextTracker ev t) (ls ++ blockLines ev t) := by
  rw [nextTracker, blockLines]
  cases kindOf ev with
  | alloc =>
      dsimp only
      split
      · rename_i hsize
        refine ⟨fun addr => ?_, by simpa using h.frees⟩
        rw [List.append_nil, h.tracked, allocSize_onAlloc]
        by_cases ha : ev.addr = addr
        · simp [← ha, hsize]
        · simp [ha]
      · refine ⟨fun addr => ?_, h.frees.snoc (by simp)⟩
        rw [lastBlock_snoc, h.tracked, allocSize_onAlloc]
        rfl
  | free =>
      dsimp only
      split
      · rename_i size hsize
        refine ⟨fun addr => ?_, h.frees.snoc ?_⟩
        · rw [lastBlock_snoc, h.tracked, allocSize_onFree]
          rfl
        · intro seq tid addr size' heq
          obtain ⟨-, -, rfl, -⟩ := Line.free.inj heq
          rw [h.tracked, hsize]
          rfl
      · rename_i hnone
        refine ⟨fun addr => ?_, by simpa using h.frees⟩
        rw [List.append_nil, h.tracked, allocSize_onFree]
        by_cases ha : ev.addr = addr
        · simp [← ha, hnone]
        · simp [ha]
  | _ => simpa using h

/-- A stream that begins with the run. -/
structure Opens (s : State) : Prop where
  stream : s.topo = some []
  blocks : s.world.heapAllocs = {}

theorem runEvents_snoc (start : State) (events : List HostEvent) (e : HostEvent) :
    runEvents start (events ++ [e]) = processEvent e.1 e.2 (runEvents start events) := by
  rw [runEvents, List.foldl_append]
  rfl

theorem heapAllocs_eq_nextTracker (host : Host) (ev : Event) (s : State) :
    (processEvent host ev s).world.heapAllocs = nextTracker ev s.world.heapAllocs :=
  heapAllocs_processEvent host ev s

/-- The books of a run. -/
theorem booked_runEvents {start : State} (hstart : Opens start) (events : List HostEvent) :
    ∃ bs, (runEvents start events).blocks = some bs ∧
      Booked (runEvents start events).world.heapAllocs bs := by
  induction events using List.reverseRecOn with
  | nil =>
      refine ⟨[], ?_, ?_, .nil⟩
      · show start.topo.map _ = _
        rw [hstart.stream]
        rfl
      · intro addr
        show _ = (start.world.heapAllocs.allocSize addr).isSome
        rw [hstart.blocks]
        rfl
  | append_singleton events e ih =>
      obtain ⟨bs, hbs, hbooked⟩ := ih
      rw [runEvents_snoc, blocks_processEvent, hbs, heapAllocs_eq_nextTracker]
      exact ⟨_, rfl, hbooked.next e.2⟩

/-- The numbers of a run's lines are of 32 bits. -/
theorem number_lt_of_runEvents {start : State} (hstart : Opens start) (events : List HostEvent)
    {ls : List Line} (hls : (runEvents start events).topo = some ls) :
    ∀ l ∈ ls, l.number < 2 ^ 32 := by
  have hlines (n : ℕ) (hn : 2 ^ 32 ≤ n) :
      (runEvents start events).linesOf (fun l => l.number = n) = some [] := by
    clear hls
    induction events using List.reverseRecOn with
    | nil =>
        show start.topo.map _ = _
        rw [hstart.stream]
        rfl
    | append_singleton events e ih =>
        have hlt : seqOf e.2 < 2 ^ 32 := e.2.seq32.toNat_lt
        rw [runEvents_snoc, number_processEvent (by omega), ih]
  intro l hl
  by_contra hge
  have hnone := hlines l.number (not_lt.mp hge)
  rw [State.linesOf, hls, Option.map_some, Option.some_inj, List.filter_eq_nil_iff] at hnone
  exact hnone l hl (by simp)

end Books

end Rtmap.Engine
