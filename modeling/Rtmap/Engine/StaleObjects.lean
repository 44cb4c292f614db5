import Rtmap.Engine.Replay
import Rtmap.Engine.Variables

/-!
# Collecting stale objects

`gc_stale` compares the number of the last write into an object, which its thread counts,
with the total of the events of all threads. `evicts_only_stale_iff` says when no object
is collected that was written of late.
-/
namespace Rtmap.Engine
open Rtmap.Ring Transition

/-- The write as the heap graph takes it. -/
def recentOf (ev : Event) : RecentWrite := ⟨ev.addr, ev.size, writeValue ev, seqOf ev⟩

namespace HeapGraph

instance decidableFounds (g : HeapGraph) (w : RecentWrite) : Decidable (Founds g w) :=
  inferInstanceAs (Decidable (_ ∧ _ ∧ _))

/-- The write goes into the object at the base, or founds it. -/
def Records (g : HeapGraph) (w : RecentWrite) (base : UInt64) : Prop :=
  (g.findObjectBase w.addr = some base ∧ (g.objects.get? base).isSome) ∨
    (Founds g w ∧ g.clusterBase w = base)

instance decidableRecords (g : HeapGraph) (w : RecentWrite) (base : UInt64) :
    Decidable (Records g w base) := inferInstanceAs (Decidable (_ ∨ _))

variable {g : HeapGraph} {w : RecentWrite} {base : UInt64}

/-- An object that the write is recorded in has its number, and the others are as they were. -/
theorem get?_processWrite (g : HeapGraph) (w : RecentWrite) (base : UInt64) :
    (Records g w base ∧ ∃ obj, (g.processWrite w).objects.get? base = some obj ∧
      obj.lastSeq = w.seq) ∨
    (¬ Records g w base ∧ (g.processWrite w).objects.get? base = g.objects.get? base) := by
  rcases processWrite_cases g w with ⟨b, obj, hfind, hobj⟩ | hfounds | ⟨hinto, hfounds⟩
  · have hrecords : Records g w base ↔ base = b := by
      constructor
      · intro h
        rcases h with ⟨hbase, -⟩ | ⟨⟨hnone, -⟩, -⟩
        · exact Option.some.inj (hbase.symm.trans hfind)
        · rw [hfind] at hnone
          cases hnone
      · intro h
        subst h
        exact .inl ⟨hfind, by rw [hobj]; rfl⟩
    rw [hrecords, processWrite_into hfind hobj]
    by_cases hb : base = b
    · subst hb
      exact .inl ⟨rfl, writeObject base w obj, SortedMap.get?_insert_self .., rfl⟩
    · refine .inr ⟨hb, ?_⟩
      dsimp only
      rw [SortedMap.get?_insert, if_neg hb]
  · have hrecords : Records g w base ↔ base = g.clusterBase w := by
      constructor
      · intro h
        rcases h with ⟨hbase, -⟩ | ⟨-, hbase⟩
        · rw [hfounds.1] at hbase
          cases hbase
        · exact hbase.symm
      · exact fun h => .inr ⟨hfounds, h.symm⟩
    rw [hrecords, processWrite_founds hfounds]
    by_cases hb : base = g.clusterBase w
    · subst hb
      exact .inl ⟨rfl, foundObject (g.clusterBase w) (g.clusterOf w) w.seq,
        SortedMap.get?_insert_self .., rfl⟩
    · refine .inr ⟨hb, ?_⟩
      dsimp only
      rw [SortedMap.get?_insert, if_neg hb]
  · refine .inr ⟨?_, by rw [processWrite_apart hinto hfounds]⟩
    intro h
    rcases h with ⟨hbase, hsome⟩ | ⟨hf, -⟩
    · rw [hinto base hbase] at hsome
      cases hsome
    · exact hfounds hf

end HeapGraph

section Graph
variable (host : Host) (ev : Event) (s : State)

theorem Write.heapGraph_heap : (Write.heap host ev s).heapGraph =
    if s.heapOracle.isHeap ev.addr then s.heapGraph.processWrite (recentOf ev)
    else s.heapGraph := by
  rw [heap]
  split
  · obtain ⟨vs, topo, hfields⟩ := fields_eq ev (graph ev s)
    obtain ⟨m, info, topo', hpropagate⟩ := propagate_eq host ev (fields ev (graph ev s))
    obtain ⟨hs, topo'', hbounds⟩ := bounds_eq ev (propagate host ev (fields ev (graph ev s)))
    rw [hbounds, hpropagate, hfields]
    rfl
  · rfl

theorem Write.heapGraph_node : (Write.node host ev s).heapGraph = s.heapGraph := by
  rw [node]
  split
  · rfl
  · rename_i h _
    split
    · obtain ⟨m, log, info, topo, hpointer⟩ := @pointer_eq host ev
        (value ev h { s with addrIndex := (s.addrIndex.lookup host.orders ev.addr).1 }) h
      rw [hpointer]
      rfl
    · rfl

theorem heapGraph_processEvent_write (hkind : kindOf ev = .write) :
    (processEvent host ev s).heapGraph =
      if s.heapOracle.isHeap ev.addr then s.heapGraph.processWrite (recentOf ev)
      else s.heapGraph := by
  obtain ⟨regs, hregistered⟩ := Write.registered_eq ev (countEvent s)
  have hbefore : beforeNode host ev s = Write.heap host ev (Write.registered ev (countEvent s)) :=
    rfl
  rw [processEvent_write host ev s hkind, Write.heapGraph_node, hbefore, Write.heapGraph_heap,
    hregistered]
  rfl

/-- What a block held is taken out when its epoch closes. -/
theorem onFree_closeEpoch (oldSize : UInt64) (reason : EpochClose) (line : CloseReason)
    (size : UInt64) : ∃ bases : List UInt64,
      (Alloc.closeEpoch ev oldSize reason line s).heapGraph.onFree ev.addr size =
        bases.foldl HeapGraph.removeObject s.heapGraph := by
  rw [heapGraph_closeEpoch]
  exact ⟨_, rfl⟩

/-- Any other event at most takes objects out. -/
theorem heapGraph_processEvent (hkind : kindOf ev ≠ .write) : ∃ bases : List UInt64,
    (processEvent host ev s).heapGraph = bases.foldl HeapGraph.removeObject s.heapGraph := by
  rw [processEvent, processKind]
  cases hk : kindOf ev with
  | write => exact absurd hk hkind
  | call =>
      refine ⟨[], ?_⟩
      dsimp only
      rw [processCall]
      split <;> rfl
  | ret =>
      refine ⟨[], ?_⟩
      dsimp only
      rw [processReturn]
      split
      · rfl
      · dsimp only
        split
        · rfl
        · rw [retireFrame]
          split
          · split <;> rfl
          · rfl
  | alloc =>
      dsimp only
      obtain ⟨m, info, topo, hbirth⟩ := Alloc.stampBirth_eq host ev (Alloc.track ev (countEvent s))
      rw [processAlloc, hbirth, Alloc.track]
      dsimp only
      split
      · exact ⟨[], rfl⟩
      · cases (Alloc.record ev (countEvent s)).2 with
        | none => exact ⟨[], rfl⟩
        | some size =>
            exact onFree_closeEpoch ev (Alloc.record ev (countEvent s)).1 size .realloc .realloc
              size
  | free =>
      dsimp only
      rw [processFree]
      dsimp only
      split
      · rename_i size _
        exact onFree_closeEpoch ev _ size .free .free size
      · split
        · rename_i p _
          exact onFree_closeEpoch ev _ p.typeInfo.byteSize .free .free p.typeInfo.byteSize
        · exact ⟨[], rfl⟩
  | moduleLoad =>
      refine ⟨[], ?_⟩
      dsimp only
      rw [processModuleLoad]
      split <;> rfl
  | _ => exact ⟨[], rfl⟩

end Graph

/-- The age up to which the main loop keeps objects. -/
def MAX_AGE : ℕ := 500000

/-- The loop, and for each base the last write into an object there: how many events were
processed with it, and its number. -/
structure GcWatch where
  replay : Replay
  lastWrite : UInt64 → Option (ℕ × ℕ) := fun _ => none

namespace GcWatch

/-- The last writes after an event. -/
def writesAfter (w : GcWatch) (ev : Event) : UInt64 → Option (ℕ × ℕ) :=
  if kindOf ev = .write ∧ w.replay.engine.heapOracle.isHeap ev.addr = true then fun base =>
    if HeapGraph.Records w.replay.engine.heapGraph (recentOf ev) base then
      some (w.replay.total + 1, seqOf ev)
    else w.lastWrite base
  else w.lastWrite

def next (noBb : Bool) (orders : IndexOrders) (w : GcWatch) (l : ReplayStep) : GcWatch where
  replay := Replay.step noBb orders w.replay l
  lastWrite :=
    match l with
    | .piece (.event _ ev) => w.writesAfter ev
    | _ => w.lastWrite

def run (noBb : Bool) (orders : IndexOrders) (w : GcWatch) (ls : List ReplayStep) : GcWatch :=
  ls.foldl (next noBb orders) w

/-- The end of the batch takes the object at the base out. -/
def Evicts (orders : IndexOrders) (w : GcWatch) (base : UInt64) : Prop :=
  (w.replay.engine.heapGraph.objects.get? base).isSome ∧
    (Replay.endBatch orders w.replay).engine.heapGraph.objects.get? base = none

/-- No object that one of the last events wrote is taken out. -/
def EvictsOnlyStale (orders : IndexOrders) (w : GcWatch) : Prop :=
  ∀ base n k, w.Evicts orders base → w.lastWrite base = some (n, k) →
    n + MAX_AGE ≤ w.replay.total

/-- If objects are collected, each that one of the last events wrote has a number that is not
further behind the total. -/
def NumbersKeepUp (w : GcWatch) : Prop :=
  w.replay.total % 0x10000 = 0 → ∀ base n k,
    (w.replay.engine.heapGraph.objects.get? base).isSome → w.lastWrite base = some (n, k) →
      w.replay.total < n + MAX_AGE → w.replay.total ≤ k + MAX_AGE

/-- Every object has the number of the last write into it. -/
def Numbered (w : GcWatch) : Prop :=
  ∀ base obj, w.replay.engine.heapGraph.objects.get? base = some obj →
    ∃ n, w.lastWrite base = some (n, obj.lastSeq)

section Runs
variable {noBb : Bool} {orders : IndexOrders} {w v : GcWatch}

/-- Objects that are taken out need no number. -/
theorem Numbered.of_removed (h : w.Numbered) (hwrites : v.lastWrite = w.lastWrite)
    (bases : List UInt64) (hgraph : v.replay.engine.heapGraph =
      bases.foldl HeapGraph.removeObject w.replay.engine.heapGraph) : v.Numbered := by
  intro base obj hobj
  rw [hgraph, HeapGraph.get?_foldl_removeObject] at hobj
  rw [hwrites]
  split at hobj
  · cases hobj
  · exact h base obj hobj

/-- A WRITE numbers the object that it is recorded in. -/
theorem Numbered.write (h : w.Numbered) {ev : Event} (hwrites : v.lastWrite = w.writesAfter ev)
    (hkind : kindOf ev = .write) (hgraph : v.replay.engine.heapGraph =
      if w.replay.engine.heapOracle.isHeap ev.addr then
        w.replay.engine.heapGraph.processWrite (recentOf ev)
      else w.replay.engine.heapGraph) : v.Numbered := by
  intro base obj hobj
  rw [hgraph] at hobj
  rw [hwrites, writesAfter]
  split at hobj
  · rename_i hheap
    rw [if_pos ⟨hkind, hheap⟩]
    rcases HeapGraph.get?_processWrite w.replay.engine.heapGraph (recentOf ev) base with
      ⟨hrecords, obj', hobj', hnumber⟩ | ⟨hrecords, hsame⟩
    · rw [hobj'] at hobj
      obtain rfl := Option.some.inj hobj
      rw [if_pos hrecords, hnumber]
      exact ⟨_, rfl⟩
    · rw [hsame] at hobj
      rw [if_neg hrecords]
      exact h base obj hobj
  · rename_i hheap
    rw [if_neg (fun hboth => hheap hboth.2)]
    exact h base obj hobj

theorem numbered_next (h : w.Numbered) (l : ReplayStep) : (w.next noBb orders l).Numbered := by
  cases l with
  | endBatch =>
      refine h.of_removed rfl w.replay.stale ?_
      change (Replay.endBatch orders w.replay).engine.heapGraph = _
      rw [Replay.endBatch_engine]
  | piece p =>
      cases p with
      | snapshot header cont =>
          refine h.of_removed rfl [] ?_
          change (tickInsn ((applyRegSnapshot (header :: cont)).2.elim w.replay.engine fun u =>
            applySnapshotUpdate u w.replay.engine)).heapGraph = _
          cases (applyRegSnapshot (header :: cont)).2 <;> rfl
      | event host ev =>
          have hreplay : (w.next noBb orders (.piece (.event host ev))).replay.engine =
              if noBb && ev.kind == EVENT_BB_ENTRY then w.replay.engine
              else processEvent host ev (tickInsn w.replay.engine) := by
            change (Replay.step noBb orders w.replay (.piece (.event host ev))).engine = _
            rw [Replay.step_event]
            split <;> rfl
          by_cases hkind : kindOf ev = .write
          · have hbb : ¬ ((noBb && ev.kind == EVENT_BB_ENTRY) = true) := by
              intro hskip
              have hentry : ev.kind = EVENT_BB_ENTRY := by
                simp only [Bool.and_eq_true, beq_iff_eq] at hskip
                exact hskip.2
              rw [kindOf, hentry] at hkind
              cases hkind
            refine h.write rfl hkind ?_
            rw [hreplay, if_neg hbb, heapGraph_processEvent_write host ev _ hkind]
            rfl
          · have hwrites : (w.next noBb orders (.piece (.event host ev))).lastWrite =
                w.lastWrite := if_neg fun hboth => hkind hboth.1
            by_cases hbb : (noBb && ev.kind == EVENT_BB_ENTRY) = true
            · refine h.of_removed hwrites [] ?_
              rw [hreplay, if_pos hbb]
              rfl
            · obtain ⟨bases, hgraph⟩ := heapGraph_processEvent host ev (tickInsn w.replay.engine) hkind
              refine h.of_removed hwrites bases ?_
              rw [hreplay, if_neg hbb, hgraph]
              rfl

/-- The collection takes out the objects whose number is too far behind the total. -/
theorem evicts_iff (h : w.Numbered) (base : UInt64) : w.Evicts orders base ↔
    w.replay.total % 0x10000 = 0 ∧ (w.replay.engine.heapGraph.objects.get? base).isSome ∧
      ∃ n k, w.lastWrite base = some (n, k) ∧ k + MAX_AGE < w.replay.total := by
  rw [Evicts, Replay.endBatch_engine]
  dsimp only
  rw [HeapGraph.get?_foldl_removeObject]
  cases hget : w.replay.engine.heapGraph.objects.get? base with
  | none => simp
  | some obj =>
      obtain ⟨n, hlast⟩ := h base obj hget
      have hstale : base ∈ w.replay.stale ↔
          w.replay.total % 0x10000 = 0 ∧ obj.lastSeq + MAX_AGE < w.replay.total := by
        have hmem : base ∈ ((w.replay.engine.heapGraph.objects.entries.filter fun e =>
            e.2.lastSeq < w.replay.total - 500000).map Prod.fst) ↔
              obj.lastSeq < w.replay.total - 500000 := by
          simp only [List.mem_map, List.mem_filter, decide_eq_true_eq, Prod.exists]
          constructor
          · intro hex
            obtain ⟨b, o, ⟨hentry, hold⟩, rfl⟩ := hex
            rw [SortedMap.get?_eq_some.mpr hentry] at hget
            obtain rfl := Option.some.inj hget
            exact hold
          · exact fun hold => ⟨base, obj, ⟨SortedMap.get?_eq_some.mp hget, hold⟩, rfl⟩
        rw [Replay.stale]
        split
        · rename_i hgc
          rw [hmem, and_iff_right hgc, MAX_AGE]
          omega
        · rename_i hgc
          exact iff_of_false (by simp) fun hboth => hgc hboth.1
      have hnumber : (∃ n' k, w.lastWrite base = some (n', k) ∧ k + MAX_AGE < w.replay.total) ↔
          obj.lastSeq + MAX_AGE < w.replay.total := by
        rw [hlast]
        constructor
        · intro hex
          obtain ⟨n', k, heq, hlt⟩ := hex
          obtain ⟨-, rfl⟩ := Prod.mk.inj (Option.some.inj heq)
          exact hlt
        · exact fun hlt => ⟨n, obj.lastSeq, rfl, hlt⟩
      rw [hnumber]
      by_cases hin : base ∈ w.replay.stale
      · rw [if_pos hin]
        exact iff_of_true ⟨rfl, rfl⟩ ⟨(hstale.mp hin).1, rfl, (hstale.mp hin).2⟩
      · rw [if_neg hin]
        refine iff_of_false (fun hev => by cases hev.2) fun hall => hin (hstale.mpr ?_)
        exact ⟨hall.1, hall.2.2⟩

theorem evictsOnlyStale_iff (h : w.Numbered) : w.EvictsOnlyStale orders ↔ w.NumbersKeepUp := by
  constructor
  · intro hstale hgc base n k hheld hlast hrecent
    by_contra hbehind
    have hevicts : w.Evicts orders base :=
      (evicts_iff h base).mpr ⟨hgc, hheld, n, k, hlast, Nat.lt_of_not_le hbehind⟩
    have hold := hstale base n k hevicts hlast
    omega
  · intro hkeep base n k hevicts hlast
    obtain ⟨hgc, hheld, n', k', hlast', hbehind⟩ := (evicts_iff h base).mp hevicts
    obtain ⟨rfl, rfl⟩ := Prod.mk.inj (Option.some.inj (hlast.symm.trans hlast'))
    by_contra hrecent
    have hle := hkeep hgc base n k hheld hlast (Nat.lt_of_not_le hrecent)
    omega

theorem numbered_run (host : Host) (info : Option DwarfInfo) (ls : List ReplayStep) :
    (run noBb orders ⟨Replay.start host info, fun _ => none⟩ ls).Numbered := by
  induction ls using List.reverseRecOn with
  | nil =>
      intro base obj hobj
      have hempty : (Replay.start host info).engine.heapGraph = {} := by
        cases info <;> rfl
      have hnone : (Replay.start host info).engine.heapGraph.objects.get? base = none := by
        rw [hempty]
        rfl
      exact absurd (hnone.symm.trans hobj) (Option.some_ne_none obj).symm
  | append_singleton ls l ih =>
      have hlast : run noBb orders ⟨Replay.start host info, fun _ => none⟩ (ls ++ [l]) =
          (run noBb orders ⟨Replay.start host info, fun _ => none⟩ ls).next noBb orders l :=
        List.foldl_concat ..
      rw [hlast]
      exact numbered_next ih l

/-- In every run the collections take out no object that was written of late, exactly if at
each of them the numbers of those objects keep up with the total. -/
theorem evicts_only_stale_iff (noBb : Bool) (orders : IndexOrders) (host : Host)
    (info : Option DwarfInfo) (ls : List ReplayStep) :
    (∀ front, front ++ [.endBatch] <+: ls →
      (run noBb orders ⟨Replay.start host info, fun _ => none⟩ front).EvictsOnlyStale orders) ↔
    ∀ front, front ++ [.endBatch] <+: ls →
      (run noBb orders ⟨Replay.start host info, fun _ => none⟩ front).NumbersKeepUp :=
  forall₂_congr fun front _ => evictsOnlyStale_iff (numbered_run host info front)

end Runs

/-- Another thread runs through its blocks. -/
def entersBlock : ReplayStep :=
  .piece (.event .plain (numbered 2 0 (plainEvent EVENT_BB_ENTRY 0x400000 0)))

/-- The first thread's writes into a new block. -/
def fills (i : UInt16) (addr : UInt64) : ReplayStep :=
  .piece (.event .plain (numbered 1 i (plainEvent EVENT_WRITE addr 7)))

/-- After 524285 block entries of one thread another one writes its first three words. -/
def lateStart : List ReplayStep :=
  List.replicate 524285 entersBlock ++ [fills 0 0x10000, fills 1 0x10008, fills 2 0x10010]

/-- The graph and the total where no module and no stack is known. -/
structure Stands (w : GcWatch) (g : HeapGraph) (n : ℕ) : Prop where
  graph : w.replay.engine.heapGraph = g
  oracle : w.replay.engine.heapOracle = {}
  total : w.replay.total = n

theorem run_concat (noBb : Bool) (orders : IndexOrders) (w : GcWatch) (ls : List ReplayStep)
    (l : ReplayStep) : run noBb orders w (ls ++ [l]) = (run noBb orders w ls).next noBb orders l :=
  List.foldl_concat ..

theorem stands_entersBlocks (n : ℕ) :
    (run false .plain ⟨Replay.start .plain none, fun _ => none⟩
      (List.replicate n entersBlock)).Stands {} n := by
  induction n with
  | zero => exact ⟨rfl, rfl, rfl⟩
  | succ n ih =>
      rw [List.replicate_succ', run_concat]
      exact ⟨ih.graph, ih.oracle, congrArg (· + 1) ih.total⟩

theorem Stands.fills {w : GcWatch} {g : HeapGraph} {n : ℕ} (h : w.Stands g n) (i : UInt16)
    (addr : UInt64) (hheap : ({} : HeapOracle).isHeap addr = true) :
    (w.next false .plain (fills i addr)).Stands
      (g.processWrite (recentOf (numbered 1 i (plainEvent EVENT_WRITE addr 7)))) (n + 1) ∧
    (w.next false .plain (GcWatch.fills i addr)).lastWrite = fun base =>
      if HeapGraph.Records g (recentOf (numbered 1 i (plainEvent EVENT_WRITE addr 7))) base then
        some (n + 1, seqOf (numbered 1 i (plainEvent EVENT_WRITE addr 7)))
      else w.lastWrite base := by
  have hkind : kindOf (numbered 1 i (plainEvent EVENT_WRITE addr 7)) = .write := by
    have hplain : (plainEvent EVENT_WRITE 0 0).kind = EVENT_WRITE := by decide
    have hwrite : (numbered 1 i (plainEvent EVENT_WRITE addr 7)).kind = EVENT_WRITE := hplain
    rw [kindOf, if_pos hwrite]
  have hat : w.replay.engine.heapOracle.isHeap addr = true := by rwa [h.oracle]
  refine ⟨⟨?_, ?_, congrArg (· + 1) h.total⟩, ?_⟩
  · refine (heapGraph_processEvent_write .plain _ (tickInsn w.replay.engine) hkind).trans ?_
    refine (if_pos hat).trans ?_
    rw [← h.graph]
    rfl
  · have hkept := congrArg Kept.heapOracle (fixed_processWrite .plain
      (numbered 1 i (plainEvent EVENT_WRITE addr 7)) (countEvent (tickInsn w.replay.engine)))
    change (processEvent .plain (numbered 1 i (plainEvent EVENT_WRITE addr 7))
      (tickInsn w.replay.engine)).heapOracle = _
    rw [processEvent, processKind, hkind]
    exact hkept.trans h.oracle
  · change w.writesAfter _ = _
    rw [writesAfter, if_pos ⟨hkind, hat⟩, h.graph, h.total]

/-- The block that has just been written is collected. -/
theorem late_thread_loses_block :
    ¬ ∀ (noBb : Bool) (orders : IndexOrders) (host : Host) (info : Option DwarfInfo)
      (ls front : List ReplayStep), front ++ [.endBatch] <+: ls →
        (run noBb orders ⟨Replay.start host info, fun _ => none⟩ front).EvictsOnlyStale orders := by
  intro h
  have hstale := h false .plain .plain none (lateStart ++ [.endBatch]) lateStart
    (List.prefix_refl _)
  have hkeep := (evictsOnlyStale_iff (numbered_run _ _ _)).mp hstale
  have hsplit : lateStart = List.replicate 524285 entersBlock ++ [fills 0 0x10000] ++
      [fills 1 0x10008] ++ [fills 2 0x10010] := by
    rw [lateStart, List.append_assoc, List.append_assoc]
    rfl
  rw [hsplit, run_concat, run_concat, run_concat] at hkeep
  obtain ⟨h1, -⟩ := (stands_entersBlocks 524285).fills 0 0x10000 (by decide)
  obtain ⟨h2, -⟩ := h1.fills 1 0x10008 (by decide)
  obtain ⟨h3, hlast⟩ := h2.fills 2 0x10010 (by decide)
  have hle := hkeep (by rw [h3.total]) 0x10000 524288 2 (by rw [h3.graph]; decide)
    (by rw [hlast]; decide) (by rw [h3.total]; decide)
  rw [h3.total] at hle
  exact absurd hle (by decide)

end GcWatch

end Rtmap.Engine
