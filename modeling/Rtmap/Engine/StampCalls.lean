import Rtmap.Engine.LastStamp
import Rtmap.Engine.Relabelling

/-!
# Calls of the type map

What the entry points of the type map do to the projections: each call makes a
sequence of stamps or purges a range, and leaves the projections and the counters
as these, one after the other, leave them.
-/
namespace Rtmap.Engine.ShadowTypeMap

/-- The arguments of a `stamp_type` call. -/
structure Stamp where
  addr : UInt64
  typeInfo : TypeInfo
  source : String
  seq : ℕ

def Stamp.apply (m : ShadowTypeMap) (s : Stamp) : ShadowTypeMap :=
  (m.stampType s.addr s.typeInfo s.source s.seq).1

/-- The stamp of a pointer stored in a pointer field, unless another type is projected there. -/
def pointerStamp (m : ShadowTypeMap) (field : FieldInfo) (value : UInt64) (seq : ℕ)
    (registry : Registry) : Option Stamp :=
  match registry ((stripPointer field.typeInfo.name).getD "") with
  | some pointee =>
      if (m.map.get? value).any fun p => p.typeInfo.name ≠ pointee.name then none
      else some ⟨value, pointee, field.name, seq⟩
  | none => none

/-- The stamp that a field write makes. -/
def fieldStamp (m : ShadowTypeMap) (addr value : UInt64) (size : UInt32) (seq : ℕ)
    (registry : Registry) (allocs : HeapAllocTracker) : Option Stamp :=
  if size ≠ 8 ∨ value = 0 then none
  else
    match m.indirectLookup addr allocs with
    | some element => some ⟨value, element, "<indirect>", seq⟩
    | none =>
        match m.coveringFirst addr with
        | none => none
        | some p =>
            if !fresh p allocs then none
            else
              match fieldMatch p.typeInfo (addr - p.baseAddr) with
              | some field =>
                  if field.typeInfo.isPointer then m.pointerStamp field value seq registry
                  else none
              | none => none

section Replay
variable (registry : Registry) (allocs : HeapAllocTracker)

/-- The stamps that deferred writes make, each at its turn. -/
def hitsStamps : List DeferredWrite → ShadowTypeMap → List Stamp
  | [], _ => []
  | d :: ds, m =>
      (m.fieldStamp d.writeAddr d.writeValue 8 d.seq registry allocs).toList ++ hitsStamps ds
        (m.propagateFieldWrite d.writeAddr d.writeValue 8 d.seq registry allocs).1

def passStamps (m : ShadowTypeMap) : List Stamp :=
  hitsStamps registry allocs (m.deferred.filter fun d => (m.coveringFirst d.writeAddr).isSome)
    { m with deferred := m.deferred.filter fun d => (m.coveringFirst d.writeAddr).isNone }

def passesStamps : ℕ → ShadowTypeMap → List Stamp
  | 0, _ => []
  | passes + 1, m =>
      let r := m.replayPass registry allocs
      m.passStamps registry allocs ++ if r.2 = 0 then [] else passesStamps passes r.1

end Replay

/-- The stamp of a candidate. -/
def Candidate.stamp (seq : ℕ) (c : Candidate) : Stamp := ⟨c.value, c.typeInfo, c.name, seq⟩

/-- What changes the projections. -/
inductive Effect where
  | stamp (s : Stamp)
  | purge (addr size : UInt64)

def Effect.apply (m : ShadowTypeMap) : Effect → ShadowTypeMap
  | .stamp s => s.apply m
  | .purge addr size => m.purgeRange addr size

end ShadowTypeMap

open ShadowTypeMap

/-- A call of the type map. -/
inductive StmCall where
  | stampType (s : Stamp)
  | propagateFieldWrite (addr value : UInt64) (size : UInt32) (seq : ℕ) (registry : Registry)
      (allocs : HeapAllocTracker)
  | replayDeferred (registry : Registry) (allocs : HeapAllocTracker)
  | retrospectiveScan (src : ScanSource) (seed : UInt64) (seq : ℕ)
  | registerIndirect (base : UInt64) (element : TypeInfo)
  | deferWrite (d : DeferredWrite)
  | purgeRange (addr size : UInt64)
  | purgeIndirect (addr size : UInt64)
  | purgeDeferred (addr size : UInt64)

namespace StmCall

def apply (m : ShadowTypeMap) : StmCall → ShadowTypeMap
  | .stampType s => s.apply m
  | .propagateFieldWrite addr value size seq registry allocs =>
      (m.propagateFieldWrite addr value size seq registry allocs).1
  | .replayDeferred registry allocs => m.replayDeferred registry allocs
  | .retrospectiveScan src seed seq => m.retrospectiveScan src seed seq
  | .registerIndirect base element =>
      { m with indirect := Function.update m.indirect base (some element) }
  | .deferWrite d => m.deferWrite d
  | .purgeRange addr size => m.purgeRange addr size
  | .purgeIndirect addr size => m.purgeIndirect addr size
  | .purgeDeferred addr size => m.purgeDeferred addr size

/-- The stamps that a call makes and the range it purges, in their order. -/
def effects (m : ShadowTypeMap) : StmCall → List Effect
  | .stampType s => [.stamp s]
  | .propagateFieldWrite addr value size seq registry allocs =>
      (m.fieldStamp addr value size seq registry allocs).toList.map .stamp
  | .replayDeferred registry allocs =>
      (m.passesStamps registry allocs REPLAY_MAX_PASSES).map .stamp
  | .retrospectiveScan src seed seq =>
      ((scanStamps m src seed seq).map (Candidate.stamp seq)).map .stamp
  | .purgeRange addr size => [.purge addr size]
  | .registerIndirect .. | .deferWrite .. | .purgeIndirect .. | .purgeDeferred .. => []

end StmCall

namespace ShadowTypeMap

def runCalls (calls : List StmCall) : ShadowTypeMap := calls.foldl StmCall.apply {}

/-- The effects of the calls, from a map on. -/
def historyFrom : List StmCall → ShadowTypeMap → List Effect
  | [], _ => []
  | c :: cs, m => c.effects m ++ historyFrom cs (c.apply m)

def history (calls : List StmCall) : List Effect := historyFrom calls {}

/-- The map as the effects leave it. -/
def after (effects : List Effect) : ShadowTypeMap := effects.foldl Effect.apply {}

/-- The projections and the counters. -/
def bare (m : ShadowTypeMap) : ShadowTypeMap := { m with indirect := fun _ => none, deferred := [] }

section Bare
variable (m : ShadowTypeMap) (registry : Registry) (allocs : HeapAllocTracker)

/-- A stamp looks at the projections and the counters only. -/
theorem bare_stamp (s : Stamp) : (s.apply m).bare = s.apply m.bare := by
  have hlookup : m.bare.map = m.map := rfl
  rw [Stamp.apply, Stamp.apply, stampType, stampType, hlookup]
  split
  · rfl
  · cases m.map.get? s.addr with
    | none => rfl
    | some p =>
        dsimp only
        split
        · rfl
        · split
          · rfl
          · by_cases hhits : m.addrSchisms s.addr + 1 ≥ 2
            · simp [bare, project, hhits]
            · simp [bare, project, hhits]

/-- Stamps one after the other. -/
def applyStamps (stamps : List Stamp) (m : ShadowTypeMap) : ShadowTypeMap :=
  stamps.foldl Stamp.apply m

theorem bare_propagatePointer (field : FieldInfo) (value : UInt64) (seq : ℕ) :
    (m.propagatePointer field value seq registry).1.bare =
      applyStamps (m.pointerStamp field value seq registry).toList m.bare := by
  rw [propagatePointer, pointerStamp]
  cases registry ((stripPointer field.typeInfo.name).getD "") with
  | some pointee =>
      dsimp only
      split
      · rfl
      · exact bare_stamp m ⟨value, pointee, field.name, seq⟩
  | none =>
      dsimp only
      split
      · rfl
      · split
        · rfl
        · rfl

theorem bare_propagateFieldWrite (addr value : UInt64) (size : UInt32) (seq : ℕ) :
    (m.propagateFieldWrite addr value size seq registry allocs).1.bare =
      applyStamps (m.fieldStamp addr value size seq registry allocs).toList m.bare := by
  rw [propagateFieldWrite, fieldStamp]
  split
  · rfl
  · cases m.indirectLookup addr allocs with
    | some element => exact bare_stamp m ⟨value, element, "<indirect>", seq⟩
    | none =>
        cases m.coveringFirst addr with
        | none => rfl
        | some p =>
            dsimp only
            split
            · rfl
            · cases fieldMatch p.typeInfo (addr - p.baseAddr) with
              | none => rfl
              | some field =>
                  dsimp only
                  split
                  · exact bare_propagatePointer m registry field value seq
                  · rfl

theorem applyStamps_append (as bs : List Stamp) :
    applyStamps (as ++ bs) m = applyStamps bs (applyStamps as m) := List.foldl_append

theorem bare_hits (hits : List DeferredWrite) (r : ShadowTypeMap × ℕ) :
    (hits.foldl (fun r d =>
        let p := r.1.propagateFieldWrite d.writeAddr d.writeValue 8 d.seq registry allocs
        (p.1, if p.2 then r.2 + 1 else r.2)) r).1.bare =
      applyStamps (hitsStamps registry allocs hits r.1) r.1.bare := by
  induction hits generalizing r with
  | nil => rfl
  | cons d ds ih =>
      rw [List.foldl_cons, ih, hitsStamps, applyStamps_append]
      exact congrArg _ (bare_propagateFieldWrite r.1 registry allocs ..)

theorem bare_replayPass :
    (m.replayPass registry allocs).1.bare = applyStamps (m.passStamps registry allocs) m.bare :=
  bare_hits registry allocs _ _

theorem bare_replayPasses (passes : ℕ) :
    (replayPasses registry allocs passes m).bare =
      applyStamps (m.passesStamps registry allocs passes) m.bare := by
  induction passes generalizing m with
  | zero => rfl
  | succ passes ih =>
      rw [replayPasses, passesStamps, applyStamps_append, ← bare_replayPass]
      split
      · rfl
      · exact ih _

/-- A field registers an element type or finds a candidate; no registration is replaced. -/
theorem scanField_frame (src : ScanSource) (base : UInt64) (r : ShadowTypeMap × List Candidate)
    (f : FieldInfo) :
    ∃ indirect, (scanField src base r f).1 = { r.1 with indirect := indirect } ∧
      ∀ a element, r.1.indirect a = some element → indirect a = some element := by
  rw [scanField]
  split
  · exact ⟨_, rfl, fun _ _ => id⟩
  · split
    · exact ⟨_, rfl, fun _ _ => id⟩
    · dsimp only
      split
      · split
        · exact ⟨_, rfl, fun _ _ => id⟩
        · exact ⟨_, rfl, fun _ _ => id⟩
      · split
        · split
          · rename_i hcond
            have hnone := Option.isNone_iff_eq_none.mp (Bool.and_eq_true_iff.mp hcond).2
            refine ⟨_, rfl, fun a element ha => ?_⟩
            rw [Function.update_of_ne, ha]
            rintro rfl
            rw [hnone] at ha
            cases ha
          · exact ⟨_, rfl, fun _ _ => id⟩
        · exact ⟨_, rfl, fun _ _ => id⟩

theorem foldl_scanField_frame (src : ScanSource) (base : UInt64) (fs : List FieldInfo)
    (r : ShadowTypeMap × List Candidate) :
    ∃ indirect, (fs.foldl (scanField src base) r).1 = { r.1 with indirect := indirect } ∧
      ∀ a element, r.1.indirect a = some element → indirect a = some element := by
  induction fs generalizing r with
  | nil => exact ⟨_, rfl, fun _ _ => id⟩
  | cons f fs ih =>
      obtain ⟨i, hi, hkept⟩ := scanField_frame src base r f
      obtain ⟨j, hj, hkept'⟩ := ih (scanField src base r f)
      refine ⟨j, hj.trans (by rw [hi]), fun a element ha => hkept' a element ?_⟩
      rw [hi]
      exact hkept a element ha

theorem bare_fields (src : ScanSource) (base : UInt64) (fs : List FieldInfo)
    (r : ShadowTypeMap × List Candidate) :
    (fs.foldl (scanField src base) r).1.bare = r.1.bare := by
  obtain ⟨i, hi, -⟩ := foldl_scanField_frame src base fs r
  rw [hi]
  rfl

theorem bare_applyStamps (stamps : List Stamp) :
    (applyStamps stamps m).bare = applyStamps stamps m.bare := by
  induction stamps generalizing m with
  | nil => rfl
  | cons s stamps ih =>
      rw [applyStamps, List.foldl_cons]
      exact (ih (s.apply m)).trans (congrArg _ (bare_stamp m s))

theorem types_stampAll (seq : ℕ) (s : Scan) (stamps : List Candidate) :
    (stampAll seq s stamps).types = applyStamps (stamps.map (Candidate.stamp seq)) s.types := by
  rw [applyStamps, List.foldl_map]
  rfl

theorem bare_scanObject (src : ScanSource) (seq : ℕ) (base : UInt64) (s : Scan) :
    (scanObject src seq base s).types.bare =
      applyStamps ((objectStamps src base s).map (Candidate.stamp seq)) s.types.bare := by
  rw [scanObject_eq, types_stampAll, bare_applyStamps]
  cases s.types.lookup base with
  | none => rfl
  | some p => exact congrArg _ (bare_fields src base p.typeInfo.fields (s.types, []))

theorem bare_scanLoop (src : ScanSource) (seq fuel rounds : ℕ) (s : Scan) :
    (scanLoop src seq fuel rounds s).types.bare =
      applyStamps ((loopStamps src seq fuel rounds s).map (Candidate.stamp seq)) s.types.bare := by
  induction rounds generalizing s with
  | zero => rfl
  | succ rounds ih =>
      rw [scanLoop, loopStamps]
      cases s.queue with
      | nil => rfl
      | cons base queue =>
          dsimp only
          split
          · rfl
          · rw [ih, bare_scanObject, List.map_append, applyStamps_append]

end Bare

theorem foldl_stamps (stamps : List Stamp) (m : ShadowTypeMap) :
    (stamps.map Effect.stamp).foldl Effect.apply m = applyStamps stamps m :=
  List.foldl_map ..

/-- A call leaves projections and counters as its effects do. -/
theorem bare_apply (c : StmCall) (m : ShadowTypeMap) :
    (c.apply m).bare = (c.effects m).foldl Effect.apply m.bare := by
  cases c with
  | stampType s => exact bare_stamp m s
  | propagateFieldWrite addr value size seq registry allocs =>
      rw [StmCall.effects, foldl_stamps]
      exact bare_propagateFieldWrite m registry allocs addr value size seq
  | replayDeferred registry allocs =>
      rw [StmCall.effects, foldl_stamps]
      exact bare_replayPasses m registry allocs REPLAY_MAX_PASSES
  | retrospectiveScan src seed seq =>
      rw [StmCall.effects, foldl_stamps]
      exact bare_scanLoop src seq _ _ _
  | _ => rfl

theorem bare_historyFrom (calls : List StmCall) (m : ShadowTypeMap) :
    (calls.foldl StmCall.apply m).bare = (historyFrom calls m).foldl Effect.apply m.bare := by
  induction calls generalizing m with
  | nil => rfl
  | cons c cs ih => rw [List.foldl_cons, ih, historyFrom, List.foldl_append, bare_apply]

theorem bare_runCalls (calls : List StmCall) : (runCalls calls).bare = after (history calls) :=
  bare_historyFrom calls {}

end ShadowTypeMap

end Rtmap.Engine
