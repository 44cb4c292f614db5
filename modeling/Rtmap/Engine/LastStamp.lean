import Rtmap.Engine.Freshness
import Rtmap.Engine.Lines

/-!
# The stamp of a stored address

What the stamp of a heap address stored in a typed pointer variable displaces, the
line that reports it, and what the replay and the scan after it leave at the address.
-/
namespace Rtmap.Engine
open Rtmap.Ring ShadowTypeMap

namespace ShadowTypeMap

variable {src : ScanSource} {m : ShadowTypeMap} {base b : UInt64} {p : TypeProjection}

/-- The scan of a field projects nothing; its candidates are at addresses without
a projection. -/
theorem scanField_spec (src : ScanSource) (base : UInt64) (r : ShadowTypeMap × List Candidate)
    (f : FieldInfo) :
    (scanField src base r f).1.map = r.1.map ∧
      ∀ c ∈ (scanField src base r f).2, c ∈ r.2 ∨ r.1.map.contains c.value = false := by
  simp only [scanField]
  split
  · exact ⟨rfl, fun c hc => .inl hc⟩
  · split
    · exact ⟨rfl, fun c hc => .inl hc⟩
    · split
      · split
        · exact ⟨rfl, fun c hc => .inl hc⟩
        · rename_i hnot
          refine ⟨rfl, fun c hc => ?_⟩
          rcases List.mem_append.mp hc with hc | hc
          · exact .inl hc
          · rw [List.mem_singleton.mp hc]
            right
            simp only [Bool.or_eq_true, not_or, Bool.not_eq_true] at hnot
            exact hnot.1
      · split
        · split
          · exact ⟨rfl, fun c hc => .inl hc⟩
          · exact ⟨rfl, fun c hc => .inl hc⟩
        · exact ⟨rfl, fun c hc => .inl hc⟩

theorem foldl_scanField_spec (src : ScanSource) (base : UInt64) (fs : List FieldInfo)
    (r : ShadowTypeMap × List Candidate) :
    (fs.foldl (scanField src base) r).1.map = r.1.map ∧
      ∀ c ∈ (fs.foldl (scanField src base) r).2, c ∈ r.2 ∨ r.1.map.contains c.value = false := by
  induction fs generalizing r with
  | nil => exact ⟨rfl, fun c hc => .inl hc⟩
  | cons f fs ih =>
      obtain ⟨hmap, hnew⟩ := scanField_spec src base r f
      obtain ⟨hmap', hnew'⟩ := ih (scanField src base r f)
      refine ⟨hmap'.trans hmap, fun c hc => ?_⟩
      rcases hnew' c hc with hc | hc
      · exact hnew c hc
      · exact .inr (hmap ▸ hc)

theorem lookup_stampType_ne {addr : UInt64} (h : b ≠ addr) (ti : TypeInfo) (source : String)
    (seq : ℕ) : (m.stampType addr ti source seq).1.lookup b = m.lookup b := by
  rcases stampType_cases m addr ti source seq with ⟨heq, -⟩ | ⟨hmap, -, -⟩
  · rw [heq]
  · rw [lookup, hmap, SortedMap.get?_insert, if_neg h, lookup]

/-- A scan stamps only addresses that had no projection. -/
theorem lookup_scanObject {seq : ℕ} {s : Scan} (h : s.types.lookup b = some p) :
    (scanObject src seq base s).types.lookup b = some p := by
  have hfold : ∀ (cs : List Candidate) (s : Scan), (∀ c ∈ cs, c.value ≠ b) →
      s.types.lookup b = some p → (cs.foldl (scanCandidate seq) s).types.lookup b = some p := by
    intro cs
    induction cs with
    | nil => exact fun s _ hs => hs
    | cons c cs ih =>
        intro s hne hs
        refine ih _ (fun d hd => hne d (List.mem_cons_of_mem _ hd)) ?_
        rw [scanCandidate]
        split
        · exact hs
        · rw [lookup_stampType_ne (hne c List.mem_cons_self).symm]
          exact hs
  rw [scanObject]
  split
  · exact h
  · rename_i q _
    obtain ⟨hmap, hnew⟩ := foldl_scanField_spec src base q.typeInfo.fields
      (s.types, [])
    refine hfold _ _ (fun c hc hcb => ?_) ?_
    · have hc' := (List.perm_insertionSort _ _).mem_iff.mp hc
      rcases hnew c hc' with hc' | hc'
      · cases hc'
      · rw [SortedMap.contains, hcb] at hc'
        rw [lookup] at h
        rw [h] at hc'
        cases hc'
    · rw [lookup, hmap]
      exact h

theorem lookup_retrospectiveScan (src : ScanSource) (seed : UInt64) (seq : ℕ)
    (h : m.lookup b = some p) : (m.retrospectiveScan src seed seq).lookup b = some p := by
  have hloop : ∀ (fuel rounds : ℕ) (s : Scan), s.types.lookup b = some p →
      (scanLoop src seq fuel rounds s).types.lookup b = some p := by
    intro fuel rounds
    induction rounds with
    | zero => exact fun s hs => hs
    | succ rounds ih =>
        intro s hs
        rw [scanLoop]
        split
        · exact hs
        · split
          · exact hs
          · exact ih _ (lookup_scanObject hs)
  exact hloop _ _ _ h

/-- A projection stays in place through a replay, or gives way to another. -/
theorem isSome_replayDeferred (registry : Registry) (allocs : HeapAllocTracker)
    (h : (m.lookup b).isSome) : ((m.replayDeferred registry allocs).lookup b).isSome := by
  have hP : Stampable (fun _ => True) fun map => (map.get? b).isSome := by
    intro map addr ti source seq _ hmap
    rw [SortedMap.get?_insert]
    split
    · rfl
    · exact hmap
  exact (Typed.replayDeferred (N := fun _ => True) ⟨h, fun _ _ => trivial⟩ hP registry allocs).map

/-- The types of the projection met: a stamp displaces another one that has not
the higher number. -/
theorem stampType_displaces_iff (m : ShadowTypeMap) {addr : UInt64} (haddr : addr ≠ 0)
    (ti : TypeInfo) (source : String) (seq : ℕ) :
    (∃ old, (m.stampType addr ti source seq).2 = .schism old ∨
        (m.stampType addr ti source seq).2 = .poolReuse old) ↔
      ∃ q, m.lookup addr = some q ∧ q.typeInfo.name ≠ ti.name ∧ q.stampSeq ≤ seq ∧
        ti.byteSize ≠ 0 := by
  simp only [stampType, lookup]
  split
  · rename_i hbad
    have hsize : ti.byteSize = 0 := hbad.resolve_left haddr
    simp [hsize]
  · rename_i hgood
    have hsize : ti.byteSize ≠ 0 := fun hz => hgood (.inr hz)
    split
    · rename_i hnone
      simp [hnone]
    · rename_i q hq
      simp only [hq, Option.some.injEq, exists_eq_left']
      split
      · rename_i hname
        simp [hname]
      · rename_i hname
        split
        · rename_i hseq
          simp only [reduceCtorEq, or_self, exists_false, false_iff, not_and]
          omega
        · rename_i hseq
          have hle : q.stampSeq ≤ seq := by omega
          split <;> simp [hname, hle, hsize]

end ShadowTypeMap

/-- The line reports a displaced projection. -/
def Line.isSchism : Line → Bool
  | .typeSchism .. => true
  | _ => false

/-- The schism lines of the stream. -/
def State.schisms (s : State) : Option (List Line) := s.topo.map fun ls => ls.filter Line.isSchism

section Schisms
variable {host : Host} {ev : Event} {s : State}

theorem schisms_emit {l : Line} (h : l.isSchism = false) : (s.emit l).schisms = s.schisms :=
  linesOf_emit_of_not h

theorem schisms_emit_schism {l : Line} (h : l.isSchism = true) :
    (s.emit l).schisms = s.schisms.map fun ls => ls ++ [l] := linesOf_emit h

namespace Write

/-- Up to the lookup of the variable no schism is reported. -/
theorem schisms_heap : (heap host ev s).schisms = s.schisms :=
  linesOf_heap (fun l hl _ => by cases l <;> simp_all [Line.ofHeap, Line.isSchism])
    fun l hl _ => by cases l <;> simp_all [Line.isHazard, Line.isSchism]

/-- A displaced projection is reported by one line, nothing else is. -/
theorem schisms_report (newType newSource : String) (r : StampResult) :
    (report ev newType newSource r s).schisms =
      match r with
      | .schism old | .poolReuse old => s.schisms.map fun ls =>
          ls ++ [.typeSchism (seqOf ev) ev.value old.type newType old.source newSource]
      | _ => s.schisms := by
  have hlog (old : OldStamp) : (logSchism ev old s).schisms = s.schisms := by
    rw [logSchism]
    split <;> rfl
  have hclose (reason : CloseReason) (old : OldStamp) :
      (closeSchism ev newType newSource reason old s).schisms = s.schisms.map fun ls =>
        ls ++ [.typeSchism (seqOf ev) ev.value old.type newType old.source newSource] := by
    rw [closeSchism, schisms_emit rfl, schisms_emit_schism rfl, hlog]
  cases r with
  | schism old => exact hclose .schism old
  | poolReuse old => exact hclose .poolReuse old
  | _ => rfl

end Write

end Schisms

/-- The state after the events. -/
def runEvents (start : State) (events : List HostEvent) : State :=
  events.foldl (fun s e => processEvent e.1 e.2 s) start

/-- A stamp that displaces a projection reports it by a schism line, any other
stamp reports nothing. -/
theorem schisms_stampVariable {host : Host} {ev : Event} (name : String) (registry : Registry)
    (pointee : TypeInfo) (t : State) :
    (Write.stampVariable host ev name registry pointee t).schisms =
      match (t.world.stm.stampType ev.value pointee name (seqOf ev)).2 with
      | .schism old | .poolReuse old => t.schisms.map fun ls =>
          ls ++ [.typeSchism (seqOf ev) ev.value old.type pointee.name old.source name]
      | _ => t.schisms := by
  have hreport := @Write.schisms_report ev (t.withStm fun _ =>
    (t.world.stm.stampType ev.value pointee name (seqOf ev)).1) pointee.name name
    (t.world.stm.stampType ev.value pointee name (seqOf ev)).2
  simp only [Write.stampVariable]
  split
  · rw [schisms_emit rfl]
    exact hreport
  · exact hreport

/-- After an applied stamp the type map is that of its replay, scanned from the address. -/
theorem stm_stampVariable (host : Host) {ev : Event} {name : String} (registry : Registry)
    {pointee : TypeInfo} {t : State}
    (happlied : (t.world.stm.stampType ev.value pointee name (seqOf ev)).2.applied = true) :
    ∃ src, (Write.stampVariable host ev name registry pointee t).world.stm =
      ((t.world.stm.stampType ev.value pointee name (seqOf ev)).1.replayDeferred registry
        t.world.heapAllocs).retrospectiveScan src ev.value (seqOf ev) := by
  have hallocs (r : StampResult) (u : State) :
      (Write.report ev pointee.name name r u).world.heapAllocs = u.world.heapAllocs :=
    congrArg Kept.heapAllocs (Write.kept_report ev u pointee.name name r)
  simp only [Write.stampVariable, happlied, if_true, stm_emit, Write.spread, State.withStm,
    Write.stm_report, hallocs]
  exact ⟨_, rfl⟩

/-- What the stamped address shows is what the replay leaves there. -/
theorem lookup_stampVariable_of_applied (host : Host) {ev : Event} {name : String}
    (registry : Registry) {pointee : TypeInfo} {t : State}
    (happlied : (t.world.stm.stampType ev.value pointee name (seqOf ev)).2.applied = true) :
    (Write.stampVariable host ev name registry pointee t).world.stm.lookup ev.value =
      ((t.world.stm.stampType ev.value pointee name (seqOf ev)).1.replayDeferred registry
        t.world.heapAllocs).lookup ev.value := by
  obtain ⟨src, hsrc⟩ := stm_stampVariable host registry happlied
  have hsome : ((t.world.stm.stampType ev.value pointee name (seqOf ev)).1.lookup
      ev.value).isSome := by
    rw [lookup_stampType_of_applied name happlied]
    rfl
  obtain ⟨p, hp⟩ := Option.isSome_iff_exists.mp
    (isSome_replayDeferred registry t.world.heapAllocs hsome)
  rw [hsrc, lookup_retrospectiveScan src _ _ hp, hp]

/-- A stamp that is not applied leaves the type map as it is. -/
theorem stm_stampVariable_of_not (host : Host) {ev : Event} {name : String} (registry : Registry)
    {pointee : TypeInfo} {t : State}
    (hnot : (t.world.stm.stampType ev.value pointee name (seqOf ev)).2.applied = false) :
    (Write.stampVariable host ev name registry pointee t).world.stm = t.world.stm := by
  rcases stampType_cases t.world.stm ev.value pointee name (seqOf ev) with
    ⟨hsame, -⟩ | ⟨-, -, happlied⟩
  · simp only [Write.stampVariable, hnot, Bool.false_eq_true, if_false, Write.stm_report]
    exact hsame
  · rw [hnot] at happlied
    cases happlied

end Rtmap.Engine
