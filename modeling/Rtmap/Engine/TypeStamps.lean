import Rtmap.Engine.Steps

/-!
# Stamps of an event

Every change of the type map is a stamp or a purge. A property of the map that
both preserve is preserved by replays, scans and whole events. The numbers that
stamps carry come from the event or from a deferred write.
-/
namespace Rtmap.Engine
open Rtmap.Ring

/-- A property of the projections that stamps with numbers in `N` preserve. -/
def Stampable (N : ℕ → Prop) (P : SortedMap UInt64 TypeProjection → Prop) : Prop :=
  ∀ map addr ti source seq, N seq → P map → P (map.insert addr ⟨addr, ti, source, seq⟩)

/-- A property of the projections that purges preserve. -/
def Purgeable (P : SortedMap UInt64 TypeProjection → Prop) : Prop :=
  ∀ map keep, P map → P (map.retain keep)

namespace ShadowTypeMap

/-- The property holds of the projections, and every number that is still to be
stamped is in `N`. -/
structure Typed (N : ℕ → Prop) (P : SortedMap UInt64 TypeProjection → Prop) (m : ShadowTypeMap) :
    Prop where
  map : P m.map
  deferred : ∀ d ∈ m.deferred, N d.seq

variable {N : ℕ → Prop} {P : SortedMap UInt64 TypeProjection → Prop} {m : ShadowTypeMap}

/-- A stamp leaves the map as it is or projects the type on the address. -/
theorem stampType_cases (m : ShadowTypeMap) (addr : UInt64) (ti : TypeInfo) (source : String)
    (seq : ℕ) :
    ((m.stampType addr ti source seq).1 = m ∧ (m.stampType addr ti source seq).2.applied = false) ∨
      ((m.stampType addr ti source seq).1.map = m.map.insert addr ⟨addr, ti, source, seq⟩ ∧
        (m.stampType addr ti source seq).1.deferred = m.deferred ∧
        (m.stampType addr ti source seq).2.applied = true) := by
  rw [stampType]
  split
  · exact .inl ⟨rfl, rfl⟩
  · split
    · exact .inr ⟨rfl, rfl, rfl⟩
    · split
      · exact .inl ⟨rfl, rfl⟩
      · split
        · exact .inl ⟨rfl, rfl⟩
        · dsimp only
          split
          · exact .inr ⟨rfl, rfl, rfl⟩
          · exact .inr ⟨rfl, rfl, rfl⟩

/-- An applied stamp is what its address shows. -/
theorem lookup_stampType_of_applied {m : ShadowTypeMap} {addr : UInt64} {ti : TypeInfo} {seq : ℕ}
    (source : String) (happlied : (m.stampType addr ti source seq).2.applied = true) :
    (m.stampType addr ti source seq).1.lookup addr = some ⟨addr, ti, source, seq⟩ := by
  rcases stampType_cases m addr ti source seq with ⟨-, hnot⟩ | ⟨hmap, -, -⟩
  · rw [happlied] at hnot
    cases hnot
  · rw [lookup, hmap, SortedMap.get?_insert_self]

/-- A pointer stored in a field is dropped, stamps where no other type is projected, or
registers an element type. -/
theorem propagatePointer_cases (m : ShadowTypeMap) (field : FieldInfo) (value : UInt64) (seq : ℕ)
    (registry : Registry) :
    m.propagatePointer field value seq registry = (m, false) ∨
      (∃ pointee, ((m.map.get? value).any fun p => p.typeInfo.name ≠ pointee.name) = false ∧
        m.propagatePointer field value seq registry =
          ((m.stampType value pointee field.name seq).1,
            (m.stampType value pointee field.name seq).2 == .stamped)) ∨
      ∃ ti, m.propagatePointer field value seq registry =
        ({ m with indirect := Function.update m.indirect value (some ti) }, false) := by
  rw [ShadowTypeMap.propagatePointer]
  dsimp only
  split
  · rename_i pointee _
    split
    · exact .inl rfl
    · rename_i hsame
      exact .inr (.inl ⟨pointee, Bool.not_eq_true _ ▸ hsame, rfl⟩)
  · split
    · exact .inl rfl
    · split
      · rename_i ti _
        exact .inr (.inr ⟨ti, rfl⟩)
      · exact .inl rfl

/-- A field write is dropped, stamps as an element of a pointer array, or goes to a pointer
field. -/
theorem propagateFieldWrite_cases (m : ShadowTypeMap) (addr value : UInt64) (size : UInt32)
    (seq : ℕ) (registry : Registry) (allocs : HeapAllocTracker) :
    m.propagateFieldWrite addr value size seq registry allocs = (m, false) ∨
      (size = 8 ∧ value ≠ 0) ∧
        ((∃ element, m.indirectLookup addr allocs = some element ∧
            m.propagateFieldWrite addr value size seq registry allocs =
              ((m.stampType value element "<indirect>" seq).1,
                (m.stampType value element "<indirect>" seq).2.applied)) ∨
          ∃ field, m.propagateFieldWrite addr value size seq registry allocs =
            m.propagatePointer field value seq registry) := by
  rw [ShadowTypeMap.propagateFieldWrite]
  split
  · exact .inl rfl
  · rename_i hwrite
    rw [not_or, not_not] at hwrite
    split
    · rename_i element helement
      exact .inr ⟨hwrite, .inl ⟨element, helement, rfl⟩⟩
    · split
      · exact .inl rfl
      · split
        · exact .inl rfl
        · split
          · rename_i field _
            split
            · exact .inr ⟨hwrite, .inr ⟨field, rfl⟩⟩
            · exact .inl rfl
          · exact .inl rfl

theorem Typed.stampType (h : Typed N P m) (hP : Stampable N P) {seq : ℕ} (hseq : N seq)
    (addr : UInt64) (ti : TypeInfo) (source : String) :
    Typed N P (m.stampType addr ti source seq).1 := by
  rcases stampType_cases m addr ti source seq with ⟨heq, -⟩ | ⟨hmap, hdef, -⟩
  · rw [heq]
    exact h
  · refine ⟨?_, ?_⟩
    · rw [hmap]
      exact hP _ _ _ _ _ hseq h.map
    · rw [hdef]
      exact h.deferred

theorem Typed.indirect (h : Typed N P m) (i : UInt64 → Option TypeInfo) :
    Typed N P { m with indirect := i } := ⟨h.map, h.deferred⟩

theorem Typed.purgeRange (h : Typed N P m) (hQ : Purgeable P) (addr size : UInt64) :
    Typed N P (m.purgeRange addr size) :=
  ⟨hQ m.map (fun _ p => outside addr size p.baseAddr) h.map, h.deferred⟩

theorem Typed.purgeIndirect (h : Typed N P m) (addr size : UInt64) :
    Typed N P (m.purgeIndirect addr size) := ⟨h.map, h.deferred⟩

theorem Typed.purgeDeferred (h : Typed N P m) (addr size : UInt64) :
    Typed N P (m.purgeDeferred addr size) :=
  ⟨h.map, fun d hd => h.deferred d (List.mem_of_mem_filter hd)⟩

theorem Typed.deferWrite (h : Typed N P m) {d : DeferredWrite} (hd : N d.seq) :
    Typed N P (m.deferWrite d) := by
  refine ⟨h.map, fun e he => ?_⟩
  rcases List.mem_append.mp he with he | he
  · split at he
    · exact h.deferred e (List.mem_of_mem_drop he)
    · exact h.deferred e he
  · rw [List.mem_singleton.mp he]
    exact hd

theorem Typed.propagatePointer (h : Typed N P m) (hP : Stampable N P) {seq : ℕ} (hseq : N seq)
    (field : FieldInfo) (value : UInt64) (registry : Registry) :
    Typed N P (m.propagatePointer field value seq registry).1 := by
  rcases propagatePointer_cases m field value seq registry with heq | ⟨pointee, -, heq⟩ | ⟨ti, heq⟩
  · rw [heq]
    exact h
  · rw [heq]
    exact h.stampType hP hseq _ _ _
  · rw [heq]
    exact h.indirect _

theorem Typed.propagateFieldWrite (h : Typed N P m) (hP : Stampable N P) {seq : ℕ} (hseq : N seq)
    (addr value : UInt64) (size : UInt32) (registry : Registry) (allocs : HeapAllocTracker) :
    Typed N P (m.propagateFieldWrite addr value size seq registry allocs).1 := by
  rcases propagateFieldWrite_cases m addr value size seq registry allocs with
    heq | ⟨-, ⟨element, -, heq⟩ | ⟨field, heq⟩⟩
  · rw [heq]
    exact h
  · rw [heq]
    exact h.stampType hP hseq _ _ _
  · rw [heq]
    exact h.propagatePointer hP hseq _ _ _

theorem Typed.replayPass (h : Typed N P m) (hP : Stampable N P) (registry : Registry)
    (allocs : HeapAllocTracker) : Typed N P (m.replayPass registry allocs).1 := by
  have hfold : ∀ (hits : List DeferredWrite) (r : ShadowTypeMap × ℕ), Typed N P r.1 →
      (∀ d ∈ hits, N d.seq) →
      Typed N P (hits.foldl (fun r d =>
        let p := r.1.propagateFieldWrite d.writeAddr d.writeValue 8 d.seq registry allocs
        (p.1, if p.2 then r.2 + 1 else r.2)) r).1 := by
    intro hits
    induction hits with
    | nil => exact fun r hr _ => hr
    | cons d hits ih =>
        intro r hr hnum
        exact ih _ (hr.propagateFieldWrite hP (hnum d List.mem_cons_self) _ _ _ _ _)
          fun e he => hnum e (List.mem_cons_of_mem _ he)
  exact hfold _ _ ⟨h.map, fun d hd => h.deferred d (List.mem_of_mem_filter hd)⟩
    fun d hd => h.deferred d (List.mem_of_mem_filter hd)

theorem Typed.replayDeferred (h : Typed N P m) (hP : Stampable N P) (registry : Registry)
    (allocs : HeapAllocTracker) : Typed N P (m.replayDeferred registry allocs) := by
  have hpasses : ∀ (passes : ℕ) (m : ShadowTypeMap), Typed N P m →
      Typed N P (replayPasses registry allocs passes m) := by
    intro passes
    induction passes with
    | zero => exact fun m hm => hm
    | succ passes ih =>
        intro m hm
        simp only [replayPasses]
        split
        · exact hm.replayPass hP registry allocs
        · exact ih _ (hm.replayPass hP registry allocs)
  exact hpasses _ m h

theorem Typed.scanField {src : ScanSource} {base : UInt64} {r : ShadowTypeMap × List Candidate}
    (h : Typed N P r.1) (f : FieldInfo) : Typed N P (scanField src base r f).1 := by
  simp only [ShadowTypeMap.scanField]
  split
  · exact h
  · split
    · exact h
    · split
      · split
        · exact h
        · exact h
      · split
        · split
          · exact h.indirect _
          · exact h
        · exact h

theorem Typed.scanObject {src : ScanSource} {seq : ℕ} {base : UInt64} {s : Scan}
    (h : Typed N P s.types) (hP : Stampable N P) (hseq : N seq) :
    Typed N P (scanObject src seq base s).types := by
  have hfields : ∀ (fs : List FieldInfo) (r : ShadowTypeMap × List Candidate), Typed N P r.1 →
      Typed N P (fs.foldl (ShadowTypeMap.scanField src base) r).1 := by
    intro fs
    induction fs with
    | nil => exact fun r hr => hr
    | cons f fs ih => exact fun r hr => ih _ (hr.scanField f)
  have hcandidates : ∀ (cs : List Candidate) (s : Scan), Typed N P s.types →
      Typed N P (cs.foldl (scanCandidate seq) s).types := by
    intro cs
    induction cs with
    | nil => exact fun s hs => hs
    | cons c cs ih =>
        intro s hs
        refine ih _ ?_
        rw [scanCandidate]
        split
        · exact hs
        · exact hs.stampType hP hseq _ _ _
  rw [ShadowTypeMap.scanObject]
  split
  · exact h
  · exact hcandidates _ _ (hfields _ _ h)

theorem Typed.retrospectiveScan (h : Typed N P m) (hP : Stampable N P) {seq : ℕ} (hseq : N seq)
    (src : ScanSource) (seed : UInt64) : Typed N P (m.retrospectiveScan src seed seq) := by
  have hloop : ∀ (fuel rounds : ℕ) (s : Scan), Typed N P s.types →
      Typed N P (scanLoop src seq fuel rounds s).types := by
    intro fuel rounds
    induction rounds with
    | zero => exact fun s hs => hs
    | succ rounds ih =>
        intro s hs
        rw [scanLoop]
        split
        · exact hs
        · split
          · exact hs
          · exact ih _ (Typed.scanObject hs hP hseq)
  exact hloop _ _ _ h

end ShadowTypeMap

open ShadowTypeMap

section Events
variable {N : ℕ → Prop} {P : SortedMap UInt64 TypeProjection → Prop} {host : Host} {ev : Event}
  {s : State}

@[simp] theorem stm_emit (l : Line) : (s.emit l).world.stm = s.world.stm := rfl

@[simp] theorem stm_withRegs (tid : UInt16) (f : ShadowRegisterFile → ShadowRegisterFile) :
    (s.withRegs tid f).world.stm = s.world.stm := rfl

namespace Write

@[simp] theorem stm_recordLine : (recordLine ev s).1.world.stm = s.world.stm := rfl

@[simp] theorem stm_observe : (observe ev s).world.stm = s.world.stm := by
  rw [observe]
  split
  · rfl
  · split <;> rfl

@[simp] theorem stm_cohere (writers : UInt16) : (cohere ev writers s).world.stm = s.world.stm := by
  rw [cohere]
  split <;> rfl

@[simp] theorem stm_graph : (graph ev s).world.stm = s.world.stm := rfl

@[simp] theorem stm_fields : (fields ev s).world.stm = s.world.stm := by
  have hcheck (p : TypeProjection) (s : State) : (checkFields ev p s).world.stm = s.world.stm := by
    rw [checkFields]
    split
    · rw [emitLastViolation]
      split <;> rfl
    · rfl
  have hlink (p : TypeProjection) (s : State) : (linkField ev p s).world.stm = s.world.stm := by
    rw [linkField]
    split
    · split <;> rfl
    · rfl
  rw [fields]
  split
  · rfl
  · rw [hlink, hcheck]

@[simp] theorem stm_bounds : (bounds ev s).world.stm = s.world.stm := by
  rw [bounds]
  split
  · split
    · rfl
    · split <;> rfl
  · rfl

@[simp] theorem stm_report (newType newSource : String) (r : StampResult) :
    (report ev newType newSource r s).world.stm = s.world.stm := by
  have hlog (old : OldStamp) : (logSchism ev old s).world.stm = s.world.stm := by
    rw [logSchism]
    split <;> rfl
  cases r with
  | schism old => exact hlog old
  | poolReuse old => exact hlog old
  | _ => rfl

@[simp] theorem stm_edge (h : Interval) : (edge host ev h s).world.stm = s.world.stm := rfl

@[simp] theorem stm_value (h : Interval) : (value ev h s).world.stm = s.world.stm := by
  have hnode (w : World) (id : NodeId) (name : String) (ti : TypeInfo) (addr size : UInt64) :
      (w.ensureNode id name ti addr size).stm = w.stm := by
    rw [World.ensureNode]
    split <;> rfl
  have hvalue (w : World) (id : NodeId) (v : UInt64) : (w.updateValue id v).stm = w.stm := by
    rw [World.updateValue]
    split <;> rfl
  show (World.updateValue _ _ _).stm = _
  rw [hvalue, hnode]

theorem typed_spread (h : Typed N P s.world.stm) (hP : Stampable N P) {seq : ℕ} (hseq : N seq)
    (registry : Registry) (addr : UInt64) :
    Typed N P (spread host registry addr seq s).world.stm :=
  (h.replayDeferred hP registry _).retrospectiveScan hP hseq _ _

theorem typed_deepen (h : Typed N P s.world.stm) (hP : Stampable N P) (hseq : N (seqOf ev))
    (info : DwarfInfo) : Typed N P (deepen host ev info s).world.stm := by
  have hupgrade (info : DwarfInfo) : Typed N P (upgrade ev info s).world.stm := by
    rw [upgrade]
    split
    · exact h
    · split
      · split
        · exact h.stampType hP hseq _ _ _
        · exact h
      · exact h
  have hstamp (seq : ℕ) (addr : UInt64) (s : State) :
      (emitStamp seq addr s).world.stm = s.world.stm := by
    rw [emitStamp]
    split <;> rfl
  rw [deepen, hstamp]
  exact (hupgrade _).retrospectiveScan hP hseq _ _

theorem typed_propagate (h : Typed N P s.world.stm) (hP : Stampable N P) (hseq : N (seqOf ev)) :
    Typed N P (propagate host ev s).world.stm := by
  rw [propagate]
  split
  · exact h
  · have hwrite := h.propagateFieldWrite hP hseq ev.addr (writeValue ev) ev.size
    dsimp only
    split
    · exact typed_deepen (hwrite _ _) hP hseq _
    · split
      · exact Typed.deferWrite (hwrite _ _) hseq
      · exact hwrite _ _

theorem typed_heap (h : Typed N P s.world.stm) (hP : Stampable N P) (hseq : N (seqOf ev)) :
    Typed N P (heap host ev s).world.stm := by
  rw [heap]
  split
  · rw [stm_bounds]
    refine typed_propagate ?_ hP hseq
    rw [stm_fields, stm_graph]
    exact h
  · exact h

theorem typed_stampPointee (h : Typed N P s.world.stm) (hP : Stampable N P) (hseq : N (seqOf ev))
    (name typeName : String) : Typed N P (stampPointee host ev name typeName s).world.stm := by
  rw [stampPointee]
  split
  · exact h
  · dsimp only
    split
    · rename_i pointee _
      have hstamp := h.stampType hP hseq ev.value pointee name
      rw [stampVariable]
      dsimp only
      split
      · rw [stm_emit]
        refine typed_spread ?_ hP hseq _ _
        rw [stm_report]
        exact hstamp
      · rw [stm_report]
        exact hstamp
    · exact h

theorem typed_node (h : Typed N P s.world.stm) (hP : Stampable N P) (hseq : N (seqOf ev)) :
    Typed N P (node host ev s).world.stm := by
  simp only [node]
  split
  · exact h
  · rename_i x _
    have hvalue : Typed N P (value ev x
        { s with addrIndex := (s.addrIndex.lookup host.orders ev.addr).1 }).world.stm := by
      rw [stm_value]
      exact h
    split
    · rw [pointer]
      dsimp only
      split
      · rw [stm_edge]
        exact hvalue
      · rw [stm_emit]
        split
        · refine typed_stampPointee ?_ hP hseq _ _
          rw [stm_edge]
          exact hvalue
        · rw [stm_edge]
          exact hvalue
    · exact hvalue

end Write

theorem typed_processWrite (h : Typed N P s.world.stm) (hP : Stampable N P) (hseq : N (seqOf ev)) :
    Typed N P (processWrite host ev s).world.stm := by
  refine Write.typed_node (Write.typed_heap ?_ hP hseq) hP hseq
  rw [Write.stm_cohere, Write.stm_observe, Write.stm_recordLine]
  exact h

namespace Alloc

@[simp] theorem stm_closeEpoch (oldSize : UInt64) (reason : EpochClose) (line : CloseReason) :
    (closeEpoch ev oldSize reason line s).world.stm = s.world.stm := by
  rw [closeEpoch]
  split <;> rfl

/-- Tracking a block keeps the type map or purges the block's old range. -/
theorem stm_track (ev : Event) (s : State) :
    (track ev s).world.stm = s.world.stm ∨
      ∃ old, (track ev s).world.stm = s.world.stm.purgeRange ev.addr old := by
  have hrenew (old : Option UInt64) (s : State) : (renew ev old s).world.stm = s.world.stm ∨
      ∃ size, (renew ev old s).world.stm = s.world.stm.purgeRange ev.addr size := by
    cases old with
    | none => exact .inl rfl
    | some size => exact .inr ⟨size, congrArg (fun m => m.purgeRange ev.addr size)
        (stm_closeEpoch size .realloc .realloc)⟩
  rw [track]
  split
  · exact .inl rfl
  · exact hrenew _ (record ev s).1

theorem typed_track (h : Typed N P s.world.stm) (hQ : Purgeable P) :
    Typed N P (track ev s).world.stm := by
  rcases stm_track ev s with heq | ⟨old, heq⟩
  · rw [heq]
    exact h
  · rw [heq]
    exact h.purgeRange hQ _ _

theorem typed_stampBirth (h : Typed N P s.world.stm) (hP : Stampable N P) (hseq : N (seqOf ev)) :
    Typed N P (stampBirth host ev s).world.stm := by
  rw [stampBirth]
  split
  · dsimp only
    split
    · exact h
    · rw [stampBlock]
      dsimp only
      split
      · exact Write.typed_spread (Typed.stampType h hP hseq _ _ _) hP hseq _ _
      · exact Typed.stampType h hP hseq _ _ _
  · exact h

end Alloc

theorem typed_processFree (h : Typed N P s.world.stm) (hQ : Purgeable P) :
    Typed N P (processFree ev s).world.stm := by
  have hpurge (size : UInt64) (s : State) (h : Typed N P s.world.stm) :
      Typed N P (Free.purge ev.addr size s).world.stm :=
    ((h.purgeRange hQ _ _).purgeIndirect _ _).purgeDeferred _ _
  rw [processFree]
  dsimp only
  split
  · rw [stm_emit]
    refine hpurge _ _ ?_
    rw [Alloc.stm_closeEpoch]
    exact h
  · split
    · refine hpurge _ _ ?_
      rw [Alloc.stm_closeEpoch]
      exact h
    · exact h

theorem typed_populateGlobals (host : Host) (info : DwarfInfo) (delta : UInt64)
    (idx : AddressIndex) (w : World) (h : Typed N P w.stm) (hP : Stampable N P) (hzero : N 0) :
    Typed N P (populateGlobals host info delta idx w).2.stm := by
  have hfold (gs : List (GlobalVar × ℕ)) : ∀ r : AddressIndex × World, Typed N P r.2.stm →
      Typed N P (gs.foldl (fun r g =>
        populateGlobal true g.1 delta (UInt32.ofNat g.2) r.1 r.2) r).2.stm := by
    induction gs with
    | nil => exact fun _ hr => hr
    | cons g gs ih =>
        intro r hr
        refine ih _ ?_
        obtain ⟨m, hcore, hm⟩ := core_populateGlobal true g.1 delta (UInt32.ofNat g.2) r.1 r.2
        have hstm : (populateGlobal true g.1 delta (UInt32.ofNat g.2) r.1 r.2).2.stm = m :=
          congrArg World.stm hcore
        rw [hstm]
        rcases hm with rfl | rfl
        · exact hr
        · exact hr.stampType hP hzero _ _ _
  exact hfold _ _ h

/-- Every event preserves what stamps with its number, with those of the deferred
writes and with 0, and purges preserve. -/
theorem typed_processEvent (h : Typed N P s.world.stm) (hP : Stampable N P) (hQ : Purgeable P)
    (hseq : N (seqOf ev)) (hzero : N 0) : Typed N P (processEvent host ev s).world.stm := by
  have hcount : Typed N P (countEvent s).world.stm := h
  rw [processEvent, processKind]
  cases kindOf ev with
  | write => exact typed_processWrite hcount hP hseq
  | call =>
      have hstm := of_core World.stm (core_processCall host ev (countEvent s))
      exact hstm ▸ hcount
  | ret =>
      have hstm := of_core World.stm (core_processReturn ev (countEvent s))
      exact hstm ▸ hcount
  | alloc => exact Alloc.typed_stampBirth (Alloc.typed_track hcount hQ) hP hseq
  | free => exact typed_processFree hcount hQ
  | moduleLoad =>
      simp only [processModuleLoad]
      split
      · exact typed_populateGlobals host _ _ _ _ hcount hP hzero
      · exact hcount
  | _ => exact hcount

/-- The blocks that an event leaves tracked. -/
theorem heapAllocs_processEvent (host : Host) (ev : Event) (s : State) :
    (processEvent host ev s).world.heapAllocs =
      match kindOf ev with
      | .alloc => (s.world.heapAllocs.onAlloc ev.addr (Alloc.size ev)).1
      | .free => (s.world.heapAllocs.onFree ev.addr).1
      | _ => s.world.heapAllocs := by
  rw [processEvent, processKind]
  cases kindOf ev with
  | write => exact congrArg Kept.heapAllocs (fixed_processWrite host ev (countEvent s))
  | call => exact (of_core World.heapAllocs (core_processCall host ev (countEvent s)) :)
  | ret => exact (of_core World.heapAllocs (core_processReturn ev (countEvent s)) :)
  | alloc => exact congrArg Kept.heapAllocs (kept_processAlloc host ev (countEvent s))
  | free => exact congrArg Kept.heapAllocs (kept_processFree ev (countEvent s))
  | moduleLoad =>
      simp only [processModuleLoad]
      split
      · obtain ⟨m, hcore⟩ := core_populateGlobals host _ _ _ (countEvent s).world
        exact of_core World.heapAllocs (v := { (countEvent s).world with stm := m }) hcore
      · rfl
  | _ => rfl

end Events

end Rtmap.Engine
