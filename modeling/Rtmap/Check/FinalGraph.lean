import Rtmap.Check.ChainLength
import Rtmap.Engine.Freshness
import Rtmap.Engine.GraphLines

/-!
# The final graph

What a run leaves in memory, next to the graph that the checker builds from its lines. An
object is a live address that is stamped with the type; the last value written to its
field leads on, unless it is null or freed. The lines are additive, so the checker's graph
is the final one only where no event takes anything away and none is silent about what it
adds: `Told` is what an event has to keep to.
-/
namespace Rtmap.Check
open Rtmap.SimplePath Rtmap.Engine
open Rtmap.Ring (EVENT_ALLOC EVENT_FREE EVENT_WRITE)

/-- The last value written at each address since its block was allocated, and the addresses
that were freed and not allocated again. -/
structure History where
  written : UInt64 → Option UInt64 := fun _ => none
  freed : UInt64 → Bool := fun _ => false

namespace History

/-- What a FREE releases: the tracked block, else the object stamped there. -/
def freedSize (s : State) (addr : UInt64) : UInt64 :=
  (s.world.heapAllocs.allocSize addr).getD
    (((s.world.stm.lookup addr).map fun p => p.typeInfo.byteSize).getD 1)

/-- The addresses that a FREE releases. -/
def released (s : State) (ev : Ring.Event) (x : UInt64) : Bool :=
  !ShadowTypeMap.outside ev.addr (freedSize s ev.addr) x

/-- The history after an event. An ALLOC of a tracked block of the same size is the
allocator's wrapper and starts nothing. -/
def next (h : History) (s : State) (ev : Ring.Event) : History :=
  match kindOf ev with
  | .write => { h with written := Function.update h.written ev.addr (some (writeValue ev)) }
  | .alloc =>
      if s.world.heapAllocs.allocSize ev.addr = some (Alloc.size ev) then h
      else
        let kept := ShadowTypeMap.outside ev.addr (Alloc.size ev)
        { written := fun x => if kept x then h.written x else none
          freed := fun x => kept x && h.freed x }
  | .free => { h with freed := fun x => h.freed x || released s ev x }
  | _ => h

end History

section Objects
variable (typeName field : String) (h : History) (s : State)

/-- A live object that is stamped with the type. -/
def isObject (b : UInt64) : Bool :=
  (s.world.stm.lookup b).any (fun p => p.typeInfo.name = typeName) && !h.freed b

/-- The address of the pointer field of the object stamped at `b`. -/
def fieldAddr (b : UInt64) : Option UInt64 :=
  (s.world.stm.lookup b).bind fun p =>
    (p.typeInfo.fields.find? fun x => x.name = field && x.typeInfo.isPointer).map fun x =>
      b + x.byteOffset

/-- Where the last value written to the field leads, unless it is null or freed. -/
def leads (b : UInt64) : Option UInt64 :=
  ((fieldAddr field s b).bind h.written).filter fun v => v ≠ 0 && !h.freed v

/-- The stream reads back as a graph whose `chain_length` ends by itself and is the number
of objects on the longest path. -/
def Measured : Prop :=
  ∃ ls g, s.topo = some ls ∧ TopoGraph.build (topologyFile ls) = some g ∧
    (∀ fuel ≥ g.links.length + 2, ∀ x,
      TopoGraph.chainFrom (fun cur => g.edges (cur, field)) fuel [] x =
        TopoGraph.chainFrom (fun cur => g.edges (cur, field)) (g.links.length + 2) [] x) ∧
    IsGreatest (insert 0 (lengths (leads field h s) {b | isObject typeName h s b = true}))
      (g.chainLength typeName field)

end Objects

/-- The graph of the stream so far. -/
def graphOf (s : State) : TopoGraph :=
  .ofRecords ((s.topo.getD []).map (recordOf rereadName reparse))

/-- The address of a STAMP line that reads as one of the type. -/
def stampAs (typeName : String) : Line → Option UInt64
  | .stamp _ addr name .. => if rereadName name = typeName then some addr else none
  | _ => none

/-- A LINK line that reads as one of the field. -/
def linksAs (field : String) : Line → Bool
  | .link _ _ _ _ _ edge => rereadName edge = field
  | _ => false

section Told
variable (typeName field : String) (h : History) (s : State) (e : HostEvent)

/-- A FREE releases no object, and neither end of a link. -/
structure FreesApart : Prop where
  objects : ∀ b, History.released s e.2 b → isObject typeName h s b = false
  sources : ∀ b, History.released s e.2 b → leads field h s b = none
  targets : ∀ b v, leads field h s b = some v → History.released s e.2 v = false

/-- The object whose field the event stores a pointer in with a LINK line. -/
def linkSource : Option UInt64 :=
  if kindOf e.2 = .write then
    ((Write.linkedField e.2 s).filter fun x => rereadName x.2.name = field).map fun x =>
      x.1.baseAddr
  else none

/-- The lines of the event tell what it does to the objects and to the values of the field. -/
structure Tells : Prop where
  /-- no object is purged or restamped with another type -/
  kept : ∀ b, isObject typeName h s b →
    isObject typeName (h.next s e.2) (processEvent e.1 e.2 s) b
  /-- none is stamped without a line, as scans, replays and globals do -/
  stamped : ∀ b, isObject typeName (h.next s e.2) (processEvent e.1 e.2 s) b →
    isObject typeName h s b ∨ ∃ l ∈ graphLines e.1 e.2 s, stampAs typeName l = some b
  /-- a STAMP line is for a live object, which keeps the type through the event -/
  stamps : ∀ l ∈ graphLines e.1 e.2 s, ∀ b ∈ stampAs typeName l,
    isObject typeName (h.next s e.2) (processEvent e.1 e.2 s) b
  /-- a value goes or changes only where a LINK line says so -/
  silent : ∀ b, linkSource field s e ≠ some b →
    leads field (h.next s e.2) (processEvent e.1 e.2 s) b = leads field h s b
  /-- a LINK line is about the field, and its target is not freed -/
  linked : ∀ b ∈ linkSource field s e,
    leads field (h.next s e.2) (processEvent e.1 e.2 s) b = some (writeValue e.2)
  /-- the last stamp over the field is its object's -/
  resolved : ∀ b ∈ linkSource field s e,
    ((graphOf s).resolveBase e.2.addr).getD e.2.addr = b
  /-- no pointer variable has the field's name -/
  unnamed : kindOf e.2 = .write →
    ∀ l ∈ Write.nodeLines e.1 e.2 (beforeNode e.1 e.2 s), linksAs field l = false

/-- The checker learns what the event does to the final graph. -/
def Told : Prop :=
  match kindOf e.2 with
  | .free => FreesApart typeName field h s e
  | .write | .alloc | .moduleLoad => Tells typeName field h s e
  | _ => True

end Told

/-- The history of a run. -/
def historyOf (start : State) (events : List HostEvent) : History :=
  (events.foldl (fun r e => (processEvent e.1 e.2 r.1, r.2.next r.1 e.2)) (start, {})).2

theorem historyOf_snoc (start : State) (events : List HostEvent) (e : HostEvent) :
    historyOf start (events ++ [e]) =
      (historyOf start events).next (runEvents start events) e.2 := by
  have hstate (r : State × History) : (events.foldl (fun r e =>
      (processEvent e.1 e.2 r.1, r.2.next r.1 e.2)) r).1 = runEvents r.1 events := by
    induction events generalizing r with
    | nil => rfl
    | cons e events ih => exact ih _
  rw [historyOf, List.foldl_append]
  exact congrArg (fun t => History.next _ t e.2) (hstate (start, {}))

/-- The checker learns what each event does. -/
inductive ToldRun (typeName field : String) (start : State) : List HostEvent → Prop
  | nil : ToldRun typeName field start []
  | snoc {events : List HostEvent} {e : HostEvent} (h : ToldRun typeName field start events)
      (he : Told typeName field (historyOf start events) (runEvents start events) e) :
      ToldRun typeName field start (events ++ [e])

section Free
variable {typeName field : String} {h : History} {s : State} {e : HostEvent}

/-- A FREE forgets the projections that it releases. -/
theorem lookup_free (hkind : kindOf e.2 = .free) (hfiled : Filed s.world.stm.map) (b : UInt64) :
    (processEvent e.1 e.2 s).world.stm.lookup b =
      if History.released s e.2 b then none else s.world.stm.lookup b := by
  have hpurge (size : UInt64) : (s.world.stm.purgeRange e.2.addr size).lookup b =
      if !ShadowTypeMap.outside e.2.addr size b then none else s.world.stm.lookup b := by
    cases hb : s.world.stm.lookup b with
    | none =>
        rw [ite_self]
        cases hget : (s.world.stm.purgeRange e.2.addr size).lookup b with
        | none => rfl
        | some p =>
            have hold := (SortedMap.get?_retain_eq_some.mp hget).1
            rw [ShadowTypeMap.lookup, hold] at hb
            cases hb
    | some p =>
        have hbase : p.baseAddr = b := hfiled b p hb
        split
        · rename_i hin
          cases hget : (s.world.stm.purgeRange e.2.addr size).lookup b with
          | none => rfl
          | some q =>
              obtain ⟨hold, hout⟩ := SortedMap.get?_retain_eq_some.mp hget
              rw [hfiled b q hold] at hout
              rw [hout] at hin
              cases hin
        · rename_i hin
          refine SortedMap.get?_retain_eq_some.mpr ⟨hb, ?_⟩
          rw [hbase]
          simpa using hin
  rw [History.released, History.freedSize]
  cases hold : s.world.heapAllocs.allocSize e.2.addr with
  | some old =>
      rw [(stores_freed hkind hold e.1).1]
      exact hpurge old
  | none =>
      have hfree : (s.world.heapAllocs.onFree e.2.addr).2 = none := hold
      cases hp : s.world.stm.lookup e.2.addr with
      | some p =>
          have hstm : (processEvent e.1 e.2 s).world.stm.lookup b =
              (s.world.stm.purgeRange e.2.addr p.typeInfo.byteSize).lookup b := by
            simp only [processEvent, processKind, hkind, processFree, countEvent, hfree, hp]
            show ((Alloc.closeEpoch e.2 _ .free .free _).world.stm.purgeRange _ _).lookup b = _
            rw [Alloc.stm_closeEpoch]
          rw [hstm]
          exact hpurge p.typeInfo.byteSize
      | none =>
          have hstm : (processEvent e.1 e.2 s).world.stm = s.world.stm := by
            simp only [processEvent, processKind, hkind, processFree, countEvent, hfree, hp]
          rw [hstm]
          split
          · -- without a size only the address itself is released
            rename_i hin
            have hrange := not_not.mp (outside_iff.not.mp (by simpa using hin))
            have hlt := UInt64.lt_iff_toNat_lt.mp hrange.2
            have hle := UInt64.le_iff_toNat_le.mp hrange.1
            rw [toNat_saturatingAdd] at hlt
            have hb : b = e.2.addr := by
              apply UInt64.toNat_inj.mp
              simp only [UInt64.toNat_one] at hlt
              omega
            rw [hb, hp]
          · rfl

/-- A FREE of a block apart changes neither the objects nor the values. -/
theorem FreesApart.next (hapart : FreesApart typeName field h s e) (hkind : kindOf e.2 = .free)
    (hfiled : Filed s.world.stm.map) (b : UInt64) :
    isObject typeName (h.next s e.2) (processEvent e.1 e.2 s) b = isObject typeName h s b ∧
      leads field (h.next s e.2) (processEvent e.1 e.2 s) b = leads field h s b := by
  have hnext : h.next s e.2 =
      { h with freed := fun x => h.freed x || History.released s e.2 x } := by
    simp only [History.next, hkind]
  have hfilter {o : Option UInt64} {p q : UInt64 → Bool} (hsame : ∀ v, o = some v → p v = q v) :
      o.filter p = o.filter q := by
    cases o with
    | none => rfl
    | some v => simp only [Option.filter, hsame v rfl]
  rw [hnext]
  simp only [isObject, leads, fieldAddr, lookup_free hkind hfiled]
  by_cases hin : History.released s e.2 b = true
  · have hobject := hapart.objects b hin
    have hsource := hapart.sources b hin
    rw [isObject] at hobject
    rw [leads, fieldAddr] at hsource
    rw [if_pos hin, hobject, hsource]
    exact ⟨rfl, rfl⟩
  · rw [if_neg hin]
    constructor
    · simp [hin]
    · have htargets := hapart.targets b
      rw [leads, fieldAddr] at htargets
      refine hfilter fun v hv => ?_
      by_cases hlive : (v ≠ 0 && !h.freed v) = true
      · rw [htargets v (Option.filter_eq_some_iff.mpr ⟨hv, hlive⟩), Bool.or_false]
      · rw [Bool.not_or, ← Bool.and_assoc, Bool.eq_false_of_not_eq_true hlive, Bool.false_and]

end Free

section Lines
variable {typeName field : String} {s : State} {e : HostEvent}

theorem chains_graphOf {ls : List Line} (hls : s.drawn = some ls) :
    (graphOf s).chains = (TopoGraph.ofRecords (ls.map (recordOf rereadName reparse))).chains := by
  obtain ⟨all, hall, rfl⟩ := Option.map_eq_some_iff.mp hls
  rw [graphOf, hall, Option.getD_some, TopoGraph.chains_ofRecords_filter]
  intro l hl
  cases l with
  | stamp => cases hl
  | link => cases hl
  | _ => exact ⟨rfl, rfl⟩

/-- The graph takes the graph lines of an event. -/
theorem chains_processEvent (hstream : s.topo.isSome) :
    (graphOf (processEvent e.1 e.2 s)).chains =
      (((graphLines e.1 e.2 s).map (recordOf rereadName reparse)).foldl TopoGraph.add
        (graphOf s)).chains := by
  obtain ⟨ls, hls⟩ := Option.isSome_iff_exists.mp hstream
  have hdrawn : s.drawn = some (ls.filter Line.isGraph) := by
    rw [State.drawn, State.linesOf, hls]
    rfl
  have hafter : (processEvent e.1 e.2 s).drawn =
      some (ls.filter Line.isGraph ++ graphLines e.1 e.2 s) := by
    rw [draws_processEvent e.1 e.2 s, hdrawn]
    rfl
  rw [chains_graphOf hafter, List.map_append, TopoGraph.ofRecords, List.foldl_append]
  exact TopoGraph.chains_foldl_add (chains_graphOf hdrawn).symm _

theorem stampAs_eq_some_iff {l : Line} {b : UInt64} : stampAs typeName l = some b ↔
    ∃ k, recordOf rereadName reparse l = .stamp k ∧ k.typeName = typeName ∧ k.addr = b := by
  cases l with
  | stamp seq addr name size source count =>
      simp only [stampAs, recordOf, Record.stamp.injEq, exists_eq_left',
        Option.ite_none_right_eq_some, Option.some_inj]
  | _ => simp [stampAs, recordOf]

/-- The objects of the graph after an event. -/
theorem mem_typeAddrs_processEvent (hstream : s.topo.isSome) (b : UInt64) :
    b ∈ (graphOf (processEvent e.1 e.2 s)).typeAddrs typeName ↔
      b ∈ (graphOf s).typeAddrs typeName ∨
        ∃ l ∈ graphLines e.1 e.2 s, stampAs typeName l = some b := by
  have htypes := congrArg TopoGraph.typeAddrs (chains_processEvent (e := e) hstream)
  have hmem := congrFun htypes typeName
  dsimp only [TopoGraph.chains] at hmem
  rw [hmem, TopoGraph.mem_typeAddrs_foldl_add]
  refine or_congr_right ⟨?_, ?_⟩
  · rintro ⟨k, hk, hkeys⟩
    obtain ⟨l, hl, heq⟩ := List.mem_map.mp hk
    exact ⟨l, hl, stampAs_eq_some_iff.mpr ⟨k, heq, hkeys⟩⟩
  · rintro ⟨l, hl, hb⟩
    obtain ⟨k, heq, hkeys⟩ := stampAs_eq_some_iff.mp hb
    exact ⟨k, List.mem_map.mpr ⟨l, hl, heq⟩, hkeys⟩

/-- Links of other fields leave the field's edges. -/
theorem edges_foldl_add_lines {g : TopoGraph} {ls : List Line}
    (hls : ∀ l ∈ ls, linksAs field l = false) (b : UInt64) :
    ((ls.map (recordOf rereadName reparse)).foldl TopoGraph.add g).edges (b, field) =
      g.edges (b, field) := by
  refine TopoGraph.edges_foldl_add (fun k hk hedge => ?_) b
  obtain ⟨l, hl, heq⟩ := List.mem_map.mp hk
  have hnot := hls l hl
  cases l with
  | link =>
      simp only [linksAs, decide_eq_false_iff_not] at hnot
      rw [← Record.link.inj heq] at hedge
      exact hnot hedge
  | _ => cases heq

theorem linksAs_stampLines {l : Line} {seq : ℕ} {addr : UInt64} {m : ShadowTypeMap}
    (hl : l ∈ Write.stampLines seq addr m) : linksAs field l = false := by
  obtain ⟨p, -, rfl⟩ := List.mem_map.mp hl
  rfl

theorem linksAs_propagateLines {host : Host} {ev : Ring.Event} {l : Line}
    (hl : l ∈ Write.propagateLines host ev s) : linksAs field l = false := by
  rw [Write.propagateLines] at hl
  split at hl
  · cases hl
  · split at hl
    · exact linksAs_stampLines hl
    · cases hl

theorem linksAs_birthLines {host : Host} {ev : Ring.Event} {l : Line}
    (hl : l ∈ Alloc.birthLines host ev s) : linksAs field l = false := by
  rw [Alloc.birthLines.eq_def] at hl
  split at hl
  · dsimp only at hl
    split at hl
    · cases hl
    · split at hl
      · rw [List.mem_singleton.mp hl]
        rfl
      · cases hl
  · cases hl

/-- The graph lines of an event: the LINK line of the field that it stores to, if that reads
as one of `field`, and lines that do not. -/
theorem graphLines_cases (hunnamed : kindOf e.2 = .write →
      ∀ l ∈ Write.nodeLines e.1 e.2 (beforeNode e.1 e.2 s), linksAs field l = false) :
    (linkSource field s e = none ∧ ∀ l ∈ graphLines e.1 e.2 s, linksAs field l = false) ∨
      ∃ x rest, linkSource field s e = some x.1.baseAddr ∧ rereadName x.2.name = field ∧
        graphLines e.1 e.2 s = Write.fieldLink e.2 x :: rest ∧
          ∀ l ∈ rest, linksAs field l = false := by
  rw [linkSource, graphLines]
  cases hkind : kindOf e.2 with
  | write =>
      have hnode := hunnamed hkind
      dsimp only
      rw [if_pos rfl, Write.heapLines]
      cases hx : Write.linkedField e.2 s with
      | none =>
          refine .inl ⟨rfl, fun l hl => ?_⟩
          rcases List.mem_append.mp hl with hl | hl
          · split at hl
            · rw [Write.fieldLinks, hx] at hl
              exact linksAs_propagateLines hl
            · cases hl
          · exact hnode l hl
      | some x =>
          have hheap : s.heapOracle.isHeap e.2.addr = true := by
            by_contra hnot
            rw [Write.linkedField, if_neg fun h => hnot h.1] at hx
            cases hx
          have hrest (l : Line)
              (hl : l ∈ Write.propagateLines e.1 e.2 (Write.beforePropagate e.2 s) ++
                Write.nodeLines e.1 e.2 (beforeNode e.1 e.2 s)) : linksAs field l = false := by
            rcases List.mem_append.mp hl with hl | hl
            · exact linksAs_propagateLines hl
            · exact hnode l hl
          rw [if_pos hheap, Write.fieldLinks, hx]
          by_cases hname : rereadName x.2.name = field
          · refine .inr ⟨x, _, ?_, hname, rfl, ?_⟩
            · simp [Option.filter, hname]
            · exact hrest
          · refine .inl ⟨by simp [Option.filter, hname], fun l hl => ?_⟩
            rcases List.mem_cons.mp hl with rfl | hl
            · simpa [linksAs, Write.fieldLink] using hname
            · exact hrest l hl
  | alloc => exact .inl ⟨rfl, fun l hl => linksAs_birthLines hl⟩
  | _ => exact .inl ⟨rfl, fun l hl => absurd hl List.not_mem_nil⟩

end Lines

section Step
variable {typeName field : String} {h : History} {s : State} {e : HostEvent}

/-- The checker's graph of the stream is the final graph. -/
structure Shown (typeName field : String) (h : History) (s : State) : Prop where
  stream : s.topo.isSome
  filed : Filed s.world.stm.map
  objects : ∀ b, b ∈ (graphOf s).typeAddrs typeName ↔ isObject typeName h s b = true
  values : ∀ b, (graphOf s).follow field b = leads field h s b

theorem isSome_topo_processEvent (hstream : s.topo.isSome) (host : Host) (ev : Ring.Event) :
    (processEvent host ev s).topo.isSome := by
  have hdraws := congrArg Option.isSome (draws_processEvent host ev s)
  simpa [State.drawn, State.linesOf, hstream] using hdraws

/-- The value behind the field after an event that adds no LINK line of the field. -/
theorem follow_of_linkSource_none (hstream : s.topo.isSome)
    (hlines : ∀ l ∈ graphLines e.1 e.2 s, linksAs field l = false) (b : UInt64) :
    (graphOf (processEvent e.1 e.2 s)).follow field b = (graphOf s).follow field b := by
  have hedges := congrArg TopoGraph.edges (chains_processEvent (e := e) hstream)
  dsimp only [TopoGraph.chains] at hedges
  rw [TopoGraph.follow, TopoGraph.follow, hedges, edges_foldl_add_lines hlines]

/-- An event that adds a LINK line of the field changes the value at the base of the address. -/
theorem follow_of_fieldLink (hstream : s.topo.isSome) {x : TypeProjection × FieldInfo}
    {rest : List Line} (hname : rereadName x.2.name = field)
    (hlines : graphLines e.1 e.2 s = Write.fieldLink e.2 x :: rest)
    (hrest : ∀ l ∈ rest, linksAs field l = false) (b : UInt64) :
    (graphOf (processEvent e.1 e.2 s)).follow field b =
      if b = ((graphOf s).resolveBase e.2.addr).getD e.2.addr then
        (some (writeValue e.2)).filter fun y => y ≠ 0
      else (graphOf s).follow field b := by
  have hedges := congrArg TopoGraph.edges (chains_processEvent (e := e) hstream)
  dsimp only [TopoGraph.chains] at hedges
  rw [hlines, List.map_cons, List.foldl_cons] at hedges
  rw [TopoGraph.follow, TopoGraph.follow, hedges, edges_foldl_add_lines hrest, Write.fieldLink,
    recordOf, hname]
  simp only [TopoGraph.add, Function.update_apply, Prod.mk.injEq, and_true]
  split <;> rfl

/-- Events that are told keep the checker's graph the final one. -/
theorem Shown.tells (hshown : Shown typeName field h s) (he : Tells typeName field h s e) :
    Shown typeName field (h.next s e.2) (processEvent e.1 e.2 s) where
  stream := isSome_topo_processEvent hshown.stream e.1 e.2
  filed := filed_processEvent hshown.filed e.1 e.2
  objects b := by
    rw [mem_typeAddrs_processEvent hshown.stream, hshown.objects]
    constructor
    · rintro (hb | ⟨l, hl, hb⟩)
      · exact he.kept b hb
      · exact he.stamps l hl b hb
    · exact he.stamped b
  values b := by
    rcases graphLines_cases he.unnamed with ⟨hsource, hlines⟩ |
      ⟨x, rest, hsource, hname, hlines, hrest⟩
    · have hsame := he.silent b (by simp [hsource])
      rw [follow_of_linkSource_none hshown.stream hlines, hshown.values, hsame]
    · have hbase := he.resolved _ hsource
      rw [follow_of_fieldLink hshown.stream hname hlines hrest, hbase]
      split
      · rename_i hb
        have hlinked := he.linked _ hsource
        rw [hb, hlinked]
        have hnonzero := (Option.filter_eq_some_iff.mp hlinked).2
        simp only [Bool.and_eq_true] at hnonzero
        rw [Option.filter_eq_some_iff]
        exact ⟨rfl, hnonzero.1⟩
      · rename_i hb
        have hne : linkSource field s e ≠ some b := by
          rw [hsource]
          exact fun heq => hb (Option.some.inj heq).symm
        rw [hshown.values, he.silent b hne]

/-- An event that adds no graph line and leaves objects and values. -/
theorem Shown.quiet (hshown : Shown typeName field h s) (hlines : graphLines e.1 e.2 s = [])
    (hsame : ∀ b, isObject typeName (h.next s e.2) (processEvent e.1 e.2 s) b =
        isObject typeName h s b ∧
      leads field (h.next s e.2) (processEvent e.1 e.2 s) b = leads field h s b) :
    Shown typeName field (h.next s e.2) (processEvent e.1 e.2 s) where
  stream := isSome_topo_processEvent hshown.stream e.1 e.2
  filed := filed_processEvent hshown.filed e.1 e.2
  objects b := by
    rw [mem_typeAddrs_processEvent hshown.stream, hshown.objects, (hsame b).1, hlines]
    simp
  values b := by
    rw [(hsame b).2, ← hshown.values]
    exact follow_of_linkSource_none hshown.stream (by simp [hlines]) b

theorem Shown.next (hshown : Shown typeName field h s) (he : Told typeName field h s e) :
    Shown typeName field (h.next s e.2) (processEvent e.1 e.2 s) := by
  rw [Told] at he
  cases hkind : kindOf e.2 with
  | write =>
      rw [hkind] at he
      exact hshown.tells he
  | alloc =>
      rw [hkind] at he
      exact hshown.tells he
  | moduleLoad =>
      rw [hkind] at he
      exact hshown.tells he
  | free =>
      rw [hkind] at he
      exact hshown.quiet (by rw [graphLines, hkind]) (he.next hkind hshown.filed)
  | call =>
      have hstm := of_core World.stm (core_processCall e.1 e.2 (countEvent s))
      refine hshown.quiet (by rw [graphLines, hkind]) fun b => ?_
      have hevent : (processEvent e.1 e.2 s).world.stm = s.world.stm := by
        rw [processEvent, processKind, hkind]
        exact hstm
      simp only [isObject, leads, fieldAddr, History.next, hkind, hevent, and_self]
  | ret =>
      have hstm := of_core World.stm (core_processReturn e.2 (countEvent s))
      refine hshown.quiet (by rw [graphLines, hkind]) fun b => ?_
      have hevent : (processEvent e.1 e.2 s).world.stm = s.world.stm := by
        rw [processEvent, processKind, hkind]
        exact hstm
      simp only [isObject, leads, fieldAddr, History.next, hkind, hevent, and_self]
  | _ =>
      refine hshown.quiet (by rw [graphLines, hkind]) fun b => ?_
      have hevent : (processEvent e.1 e.2 s).world.stm = s.world.stm := by
        rw [processEvent, processKind, hkind]
        rfl
      simp only [isObject, leads, fieldAddr, History.next, hkind, hevent, and_self]

end Step

/-- A stream that begins with the run, where no object of the type was stamped before. -/
structure Begins (typeName : String) (start : State) : Prop where
  opens : Opens start
  filed : Filed start.world.stm.map
  none : ∀ b, isObject typeName {} start b = false

section Decide
variable {typeName field : String} {h : History} {s : State} {e : HostEvent} {b : UInt64}

theorem mem_keys_of_isObject (hb : isObject typeName h s b = true) : b ∈ s.world.stm.map.keys := by
  rw [isObject, Bool.and_eq_true, Option.any_eq_true] at hb
  obtain ⟨⟨p, hp, -⟩, -⟩ := hb
  exact List.mem_map.mpr ⟨_, SortedMap.get?_eq_some.mp hp, rfl⟩

theorem leads_of_not_mem_keys (hb : b ∉ s.world.stm.map.keys) : leads field h s b = none := by
  have hnone : s.world.stm.lookup b = none := SortedMap.get?_eq_none.mpr fun p hp =>
    hb (List.mem_map.mpr ⟨_, hp, rfl⟩)
  rw [leads, fieldAddr, hnone]
  rfl

/-- Only the stamped addresses have to be looked at. -/
theorem tells_iff : Tells typeName field h s e ↔
    (∀ b ∈ s.world.stm.map.keys, isObject typeName h s b →
      isObject typeName (h.next s e.2) (processEvent e.1 e.2 s) b) ∧
    (∀ b ∈ (processEvent e.1 e.2 s).world.stm.map.keys,
      isObject typeName (h.next s e.2) (processEvent e.1 e.2 s) b →
        isObject typeName h s b ∨ ∃ l ∈ graphLines e.1 e.2 s, stampAs typeName l = some b) ∧
    (∀ l ∈ graphLines e.1 e.2 s, ∀ b ∈ stampAs typeName l,
      isObject typeName (h.next s e.2) (processEvent e.1 e.2 s) b) ∧
    (∀ b ∈ s.world.stm.map.keys ++ (processEvent e.1 e.2 s).world.stm.map.keys,
      linkSource field s e ≠ some b →
        leads field (h.next s e.2) (processEvent e.1 e.2 s) b = leads field h s b) ∧
    (∀ b ∈ linkSource field s e,
      leads field (h.next s e.2) (processEvent e.1 e.2 s) b = some (writeValue e.2)) ∧
    (∀ b ∈ linkSource field s e, ((graphOf s).resolveBase e.2.addr).getD e.2.addr = b) ∧
    (kindOf e.2 = .write →
      ∀ l ∈ Write.nodeLines e.1 e.2 (beforeNode e.1 e.2 s), linksAs field l = false) := by
  constructor
  · exact fun ht => ⟨fun b _ => ht.kept b, fun b _ => ht.stamped b, ht.stamps,
      fun b _ => ht.silent b, ht.linked, ht.resolved, ht.unnamed⟩
  · rintro ⟨hkept, hstamped, hstamps, hsilent, hlinked, hresolved, hunnamed⟩
    refine ⟨fun b hb => hkept b (mem_keys_of_isObject hb) hb,
      fun b hb => hstamped b (mem_keys_of_isObject hb) hb, hstamps, fun b hb => ?_, hlinked,
      hresolved, hunnamed⟩
    by_cases hmem : b ∈ s.world.stm.map.keys ++ (processEvent e.1 e.2 s).world.stm.map.keys
    · exact hsilent b hmem hb
    · rw [List.mem_append, not_or] at hmem
      rw [leads_of_not_mem_keys hmem.1, leads_of_not_mem_keys hmem.2]

instance : Decidable (Tells typeName field h s e) := by
  -- addresses are finitely many: without these two, all of them would be tried
  have hlist (bs : List UInt64) (p : UInt64 → Prop) [DecidablePred p] : Decidable (∀ b ∈ bs, p b) :=
    List.decidableBAll p bs
  have hoption (o : Option UInt64) (p : UInt64 → Prop) [DecidablePred p] :
      Decidable (∀ b ∈ o, p b) :=
    match o with
    | none => isTrue nofun
    | some b => decidable_of_iff (p b) ⟨fun h _ hb => Option.some.inj hb ▸ h, fun h => h b rfl⟩
  have : Decidable (∀ l ∈ graphLines e.1 e.2 s, ∀ b ∈ stampAs typeName l,
      isObject typeName (h.next s e.2) (processEvent e.1 e.2 s) b) := inferInstance
  have : Decidable (kindOf e.2 = .write → ∀ l ∈ Write.nodeLines e.1 e.2 (beforeNode e.1 e.2 s),
      linksAs field l = false) := inferInstance
  exact decidable_of_iff _ tells_iff.symm

theorem Tells.told (ht : Tells typeName field h s e) (hkind : kindOf e.2 ≠ .free) :
    Told typeName field h s e := by
  rw [Told]
  cases hk : kindOf e.2 with
  | free => exact absurd hk hkind
  | write => exact ht
  | alloc => exact ht
  | moduleLoad => exact ht
  | _ => trivial

end Decide

/-- A program whose variable `head`, at 0x4000, points to nodes that point to nodes. -/
def linkedList : State where
  topo := some []
  dwarfInfo := some {
    typeRegistry := fun n =>
      if n = "node" then
        some {
          name := "node", byteSize := 16
          fields := [{
            name := "next", byteOffset := 8, byteSize := 8
            typeInfo := { name := "*node", byteSize := 8, isPointer := true } }] }
      else none }
  addrIndex := ({} : AddressIndex).insertGlobal 0x4000 8 "head"
    { name := "*node", byteSize := 8, isPointer := true } 0

theorem begins_linkedList : Begins "node" linkedList where
  opens := ⟨rfl, rfl⟩
  filed base p hp := by cases hp
  none b := rfl

/-- Two nodes: `head` points to the first, whose `next` points to the second. -/
def linkTwo : List HostEvent :=
  [(.plain, numbered 1 1 (plainEvent EVENT_ALLOC 0x20000 16)),
    (.plain, numbered 1 2 (plainEvent EVENT_ALLOC 0x30000 16)),
    (.plain, numbered 1 3 (plainEvent EVENT_WRITE 0x4000 0x20000)),
    (.plain, numbered 1 4 (plainEvent EVENT_WRITE 0x20008 0x30000))]

/-- A node that `head` points to is freed. -/
def freeFirstNode : List HostEvent :=
  [(.plain, numbered 1 1 (plainEvent EVENT_ALLOC 0x20000 16)),
    (.plain, numbered 1 2 (plainEvent EVENT_WRITE 0x4000 0x20000)),
    (.plain, numbered 1 3 (plainEvent EVENT_FREE 0x20000 0))]

end Rtmap.Check
