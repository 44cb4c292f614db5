import Rtmap.Engine.Displacing
import Rtmap.Engine.ReplayFixpoint
import Rtmap.Engine.StampCalls

/-!
# The types that a replay puts on an address

A deferred write moves a projection only as an element of a pointer array. What an
address shows after a replay is the last element type that the deferred writes of
the address put there, each at its turn; the writes that are older than its
projection and those outside every live block put none.
-/
namespace Rtmap.Engine.ShadowTypeMap
variable {m : ShadowTypeMap} {b : UInt64} {p : TypeProjection}
  {allocs : HeapAllocTracker}

theorem deferred_applyStamps (stamps : List Stamp) (m : ShadowTypeMap) :
    (applyStamps stamps m).deferred = m.deferred := by
  induction stamps generalizing m with
  | nil => rfl
  | cons c stamps ih => exact (ih _).trans (deferred_stampType ..)

/-- A scan defers nothing and resolves nothing deferred. -/
theorem deferred_retrospectiveScan (src : ScanSource) (seed : UInt64) (seq : ℕ)
    (m : ShadowTypeMap) : (m.retrospectiveScan src seed seq).deferred = m.deferred := by
  have hobject (base : UInt64) (s : Scan) :
      (scanObject src seq base s).types.deferred = s.types.deferred := by
    rw [scanObject_eq, types_stampAll, deferred_applyStamps]
    cases s.types.lookup base with
    | none => rfl
    | some p =>
        obtain ⟨i, hi, -⟩ := foldl_scanField_frame src base p.typeInfo.fields (s.types, [])
        show (p.typeInfo.fields.foldl (scanField src base) (s.types, [])).1.deferred = _
        rw [hi]
  have hloop (fuel rounds : ℕ) : ∀ s : Scan,
      (scanLoop src seq fuel rounds s).types.deferred = s.types.deferred := by
    induction rounds with
    | zero => exact fun s => rfl
    | succ rounds ih =>
        intro s
        rw [scanLoop]
        split
        · rfl
        · split
          · rfl
          · exact (ih _).trans (hobject _ _)
  exact hloop _ _ _

section Elements
variable (registry : Registry) (allocs : HeapAllocTracker) (b : UInt64)

/-- The type that a deferred write puts in the place of the one at the address: the element
type of the pointer array it was made in. -/
def elementOn (m : ShadowTypeMap) (d : DeferredWrite) : Option TypeInfo :=
  if d.writeValue = b then
    (m.indirectLookup d.writeAddr allocs).filter fun element => m.displaces b element d.seq
  else none

/-- The types that deferred writes put on the address, each write at its turn. -/
def elementsOn : List DeferredWrite → ShadowTypeMap → List TypeInfo
  | [], _ => []
  | d :: ds, m =>
      (m.elementOn allocs b d).toList ++
        elementsOn ds (m.propagateFieldWrite d.writeAddr d.writeValue 8 d.seq registry allocs).1

/-- Those of a replay, pass by pass. -/
def passElements : ℕ → ShadowTypeMap → List TypeInfo
  | 0, _ => []
  | passes + 1, m =>
      elementsOn registry allocs b m.hits m.drained ++
        if (m.replayPass registry allocs).2 = 0 then []
        else passElements passes (m.replayPass registry allocs).1

def replayElements (m : ShadowTypeMap) : List TypeInfo :=
  passElements registry allocs b REPLAY_MAX_PASSES m

end Elements

/-- A deferred write leaves the projection at the address alone or puts its element type there. -/
theorem lookup_of_elementOn (registry : Registry) (allocs : HeapAllocTracker) (d : DeferredWrite)
    (hp : m.lookup b = some p) :
    match m.elementOn allocs b d with
    | none => (m.propagateFieldWrite d.writeAddr d.writeValue 8 d.seq registry allocs).1.lookup b =
        some p
    | some element => ∃ q, (m.propagateFieldWrite d.writeAddr d.writeValue 8 d.seq registry
        allocs).1.lookup b = some q ∧ q.typeInfo = element := by
  cases helement : m.elementOn allocs b d with
  | none =>
      refine lookup_propagateFieldWrite_of (fun hvalue _ element hlookup => ?_) hp
      simpa [elementOn, hvalue, hlookup, Option.filter] using helement
  | some element =>
      rw [elementOn] at helement
      split at helement
      · rename_i hvalue
        obtain ⟨hlookup, hdisplaces⟩ := Option.filter_eq_some_iff.mp helement
        have hne : b ≠ 0 := by
          rw [displaces, Bool.and_eq_true, bne_iff_ne] at hdisplaces
          exact hdisplaces.1
        have hwrite : m.propagateFieldWrite d.writeAddr d.writeValue 8 d.seq registry allocs =
            ((m.stampType b element "<indirect>" d.seq).1,
              (m.stampType b element "<indirect>" d.seq).2.applied) := by
          simp only [propagateFieldWrite, hvalue, hlookup, ne_eq, not_true_eq_false, hne, or_self,
            if_false]
        rw [displaces_eq m b element "<indirect>"] at hdisplaces
        have happlied : (m.stampType b element "<indirect>" d.seq).2.applied = true := by
          cases hresult : (m.stampType b element "<indirect>" d.seq).2 with
          | stamped | schism | poolReuse => rfl
          | restamped | rejected =>
              rw [hresult] at hdisplaces
              cases hdisplaces
        exact ⟨_, by rw [hwrite, lookup_stampType_of_applied _ happlied], rfl⟩
      · cases helement

/-- What the address shows after the writes is the last type that one of them put there. -/
theorem typeInfo_handOver (registry : Registry) (ds : List DeferredWrite)
    (hp : m.lookup b = some p) :
    ∃ q, (handOver registry allocs ds m).lookup b = some q ∧
      q.typeInfo = (elementsOn registry allocs b ds m).getLast?.getD p.typeInfo := by
  induction ds generalizing m p with
  | nil => exact ⟨p, hp, rfl⟩
  | cons d ds ih =>
      have hturn := lookup_of_elementOn registry allocs d hp
      rw [elementsOn, handOver, List.foldl_cons]
      cases helement : m.elementOn allocs b d with
      | none =>
          rw [helement] at hturn
          exact ih hturn
      | some element =>
          rw [helement] at hturn
          obtain ⟨q, hq, rfl⟩ := hturn
          obtain ⟨r, hr, htype⟩ := ih hq
          refine ⟨r, hr, htype.trans ?_⟩
          rw [List.getLast?_append]
          cases (elementsOn registry allocs b ds (m.propagateFieldWrite d.writeAddr d.writeValue 8
            d.seq registry allocs).1).getLast? <;> rfl

theorem typeInfo_replayDeferred (registry : Registry) (allocs : HeapAllocTracker)
    (hp : m.lookup b = some p) :
    ∃ q, (m.replayDeferred registry allocs).lookup b = some q ∧
      q.typeInfo = (m.replayElements registry allocs b).getLast?.getD p.typeInfo := by
  have hpasses (passes : ℕ) : ∀ (m : ShadowTypeMap) (p : TypeProjection), m.lookup b = some p →
      ∃ q, (replayPasses registry allocs passes m).lookup b = some q ∧
        q.typeInfo = (passElements registry allocs b passes m).getLast?.getD p.typeInfo := by
    induction passes with
    | zero => exact fun m p hm => ⟨p, hm, rfl⟩
    | succ passes ih =>
        intro m p hm
        obtain ⟨q, hq, htype⟩ := typeInfo_handOver registry m.hits
          (show m.drained.lookup b = some p from hm)
        rw [← (replayPass_spec registry allocs m).1] at hq
        rw [replayPasses, passElements]
        split
        · rw [List.append_nil]
          exact ⟨q, hq, htype⟩
        · obtain ⟨r, hr, hlast⟩ := ih _ q hq
          refine ⟨r, hr, hlast.trans ?_⟩
          rw [htype, List.getLast?_append]
          cases (passElements registry allocs b passes (m.replayPass registry allocs).1).getLast? <;>
            rfl
  exact hpasses _ m p hp

/-- A deferred write that is older than the projection, or was made outside every live block,
leaves the address alone. -/
def Spares (allocs : HeapAllocTracker) (addr : UInt64) (seq : ℕ) (d : DeferredWrite) : Prop :=
  d.writeValue = addr → d.seq < seq ∨ allocs.containingAlloc d.writeAddr = none

theorem elementOn_of_spares {d : DeferredWrite} (h : Spares allocs b p.stampSeq d)
    (hp : m.lookup b = some p) : m.elementOn allocs b d = none := by
  rw [elementOn]
  split
  · rename_i hvalue
    obtain hlt | hnone := h hvalue
    · rw [Option.filter_eq_none_iff]
      intro element _
      rw [displaces, hp, Option.any_some, decide_eq_false (Nat.not_le.mpr hlt), Bool.and_false,
        Bool.and_false]
      exact Bool.false_ne_true
    · rw [indirectLookup, hnone]
      rfl
  · rfl

theorem elementsOn_of_spares (registry : Registry) (ds : List DeferredWrite)
    (h : ∀ d ∈ ds, Spares allocs b p.stampSeq d) (hp : m.lookup b = some p) :
    elementsOn registry allocs b ds m = [] ∧
      (handOver registry allocs ds m).lookup b = some p := by
  induction ds generalizing m with
  | nil => exact ⟨rfl, hp⟩
  | cons d ds ih =>
      have hnone := elementOn_of_spares (h d List.mem_cons_self) hp
      have hturn := lookup_of_elementOn registry allocs d hp
      rw [hnone] at hturn
      obtain ⟨hrest, hlookup⟩ := ih (fun e he => h e (List.mem_cons_of_mem _ he)) hturn
      refine ⟨?_, hlookup⟩
      rw [elementsOn, hnone, hrest]
      rfl

/-- A replay puts nothing on an address that every deferred write spares. -/
theorem replayElements_of_spares (registry : Registry) (allocs : HeapAllocTracker)
    (h : ∀ d ∈ m.deferred, Spares allocs b p.stampSeq d) (hp : m.lookup b = some p) :
    m.replayElements registry allocs b = [] := by
  have hpasses (passes : ℕ) : ∀ m : ShadowTypeMap,
      (∀ d ∈ m.deferred, Spares allocs b p.stampSeq d) → m.lookup b = some p →
        passElements registry allocs b passes m = [] := by
    induction passes with
    | zero => exact fun m _ _ => rfl
    | succ passes ih =>
        intro m hm hp
        obtain ⟨hrun, hdeferred, -⟩ := replayPass_spec registry allocs m
        obtain ⟨hnone, hlookup⟩ := elementsOn_of_spares registry m.hits
          (fun d hd => hm d (List.mem_of_mem_filter hd)) (show m.drained.lookup b = some p from hp)
        rw [passElements, hnone, List.nil_append]
        split
        · rfl
        · refine ih _ (fun d hd => ?_) (hrun ▸ hlookup)
          rw [hdeferred] at hd
          exact hm d (List.mem_of_mem_filter hd)
  exact hpasses _ m h hp

end Rtmap.Engine.ShadowTypeMap
