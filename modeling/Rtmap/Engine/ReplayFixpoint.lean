import Rtmap.Engine.TypeStamps

/-!
# What a replay leaves

Each pass of `replay_deferred` takes the entries that a projection covers off the
buffer and hands them to `propagate_field_write` in their order. Which entries are
left when a pass stamps nothing, and which of these could still be resolved.
-/
namespace Rtmap.Engine.ShadowTypeMap

/-- The entries that a pass drains. -/
def hits (m : ShadowTypeMap) : List DeferredWrite :=
  m.deferred.filter fun d => (m.coveringFirst d.writeAddr).isSome

/-- The map without them. -/
def drained (m : ShadowTypeMap) : ShadowTypeMap :=
  { m with deferred := m.deferred.filter fun d => (m.coveringFirst d.writeAddr).isNone }

section Replay
variable (registry : Registry) (allocs : HeapAllocTracker)

/-- Hand the entries to `propagate_field_write`, one after the other. -/
def handOver (ds : List DeferredWrite) (m : ShadowTypeMap) : ShadowTypeMap :=
  ds.foldl (fun m d =>
    (m.propagateFieldWrite d.writeAddr d.writeValue 8 d.seq registry allocs).1) m

/-- The entries handed over, pass by pass. -/
def handed : ℕ → ShadowTypeMap → List (List DeferredWrite)
  | 0, _ => []
  | passes + 1, m =>
      let r := m.replayPass registry allocs
      m.hits :: if r.2 = 0 then [] else handed passes r.1

/-- An entry of the buffer that `propagate_field_write` would resolve. -/
def Resolvable (m : ShadowTypeMap) (d : DeferredWrite) : Prop :=
  (m.propagateFieldWrite d.writeAddr d.writeValue 8 d.seq registry allocs).2 = true

/-- A replay of `m` in these passes. -/
structure Replayed (m m' : ShadowTypeMap) (passes : List (List DeferredWrite)) : Prop where
  run : m' = passes.foldl (fun m ds => handOver registry allocs ds m.drained) m
  ends : passes.length ≤ REPLAY_MAX_PASSES
  /-- every entry is handed over once or still there -/
  once : (passes.flatten ++ m'.deferred).Perm m.deferred
  ordered : ∀ ds ∈ passes, ds.Sublist m.deferred
  kept : m'.deferred.Sublist m.deferred
  /-- what is left could be resolved only as an element of a pointer array -/
  rest : passes.length < REPLAY_MAX_PASSES → ∀ d ∈ m'.deferred,
    m'.indirectLookup d.writeAddr allocs = none → ¬ m'.Resolvable registry allocs d

variable {registry : Registry} {allocs : HeapAllocTracker} {m : ShadowTypeMap}

/-- Where no other type is projected a stamp that is not a first one changes nothing. -/
theorem map_stampType (addr : UInt64) (ti : TypeInfo) (source : String) (seq : ℕ)
    (hsame : ((m.map.get? addr).any fun p => p.typeInfo.name ≠ ti.name) = false)
    (h : ((m.stampType addr ti source seq).2 == .stamped) = false) :
    (m.stampType addr ti source seq).1 = m := by
  rw [stampType] at h ⊢
  split
  · rfl
  · rename_i hnull
    rw [if_neg hnull] at h
    cases hget : m.map.get? addr with
    | none =>
        simp [hget] at h
    | some p =>
        rw [hget, Option.any_some, decide_eq_false_iff_not, not_not] at hsame
        dsimp only
        rw [if_pos hsame]

theorem deferred_stampType (addr : UInt64) (ti : TypeInfo) (source : String) (seq : ℕ) :
    (m.stampType addr ti source seq).1.deferred = m.deferred := by
  rcases stampType_cases m addr ti source seq with ⟨heq, -⟩ | ⟨-, hdeferred, -⟩
  · rw [heq]
  · exact hdeferred

/-- A pointer stored in a field leaves the buffer alone, and the projections where it is not
stamped. -/
theorem propagatePointer_frame (field : FieldInfo) (value : UInt64) (seq : ℕ) :
    (m.propagatePointer field value seq registry).1.deferred = m.deferred ∧
      ((m.propagatePointer field value seq registry).2 = false →
        (m.propagatePointer field value seq registry).1.map = m.map) := by
  rcases propagatePointer_cases m field value seq registry with
    heq | ⟨pointee, hsame, heq⟩ | ⟨ti, heq⟩
  · rw [heq]
    exact ⟨rfl, fun _ => rfl⟩
  · rw [heq]
    refine ⟨deferred_stampType .., fun h => ?_⟩
    rw [map_stampType value pointee field.name seq hsame h]
  · rw [heq]
    exact ⟨rfl, fun _ => rfl⟩

theorem propagateFieldWrite_frame (addr value : UInt64) (size : UInt32) (seq : ℕ) :
    (m.propagateFieldWrite addr value size seq registry allocs).1.deferred = m.deferred ∧
      ((m.propagateFieldWrite addr value size seq registry allocs).2 = false →
        (m.propagateFieldWrite addr value size seq registry allocs).1.map = m.map) := by
  rcases propagateFieldWrite_cases m addr value size seq registry allocs with
    heq | ⟨-, ⟨element, -, heq⟩ | ⟨field, heq⟩⟩
  · rw [heq]
    exact ⟨rfl, fun _ => rfl⟩
  · rw [heq]
    refine ⟨deferred_stampType .., fun h => ?_⟩
    rcases stampType_cases m value element "<indirect>" seq with ⟨hsame, -⟩ | ⟨-, -, happlied⟩
    · exact congrArg map hsame
    · exact absurd (h.symm.trans happlied) (by decide)
  · rw [heq]
    exact propagatePointer_frame ..

/-- Outside arrays of a registered element type only a covered address is resolved. -/
theorem not_resolvable {d : DeferredWrite} (helement : m.indirectLookup d.writeAddr allocs = none)
    (hcovered : m.coveringFirst d.writeAddr = none) : ¬ m.Resolvable registry allocs d := by
  rw [Resolvable, propagateFieldWrite]
  split
  · exact Bool.false_ne_true
  · simp only [helement, hcovered]
    exact Bool.false_ne_true

/-- What a pass leaves: the entries handed over one by one, the rest of the buffer, and the
projections as they were if it stamps nothing. -/
theorem replayPass_spec (registry : Registry) (allocs : HeapAllocTracker) (m : ShadowTypeMap) :
    (m.replayPass registry allocs).1 = handOver registry allocs m.hits m.drained ∧
      (m.replayPass registry allocs).1.deferred = m.drained.deferred ∧
      ((m.replayPass registry allocs).2 = 0 → (m.replayPass registry allocs).1.map = m.map) := by
  have hfold (ds : List DeferredWrite) (r : ShadowTypeMap × ℕ) :
      let r' := ds.foldl (fun r d =>
        let p := r.1.propagateFieldWrite d.writeAddr d.writeValue 8 d.seq registry allocs
        (p.1, if p.2 then r.2 + 1 else r.2)) r
      r'.1 = handOver registry allocs ds r.1 ∧ r'.1.deferred = r.1.deferred ∧ r.2 ≤ r'.2 ∧
        (r'.2 = r.2 → r'.1.map = r.1.map) := by
    induction ds generalizing r with
    | nil => exact ⟨rfl, rfl, le_rfl, fun _ => rfl⟩
    | cons d ds ih =>
        obtain ⟨hdeferred, hmap⟩ := @propagateFieldWrite_frame registry allocs r.1 d.writeAddr
          d.writeValue 8 d.seq
        obtain ⟨hrun, hkept, hle, hsame⟩ := ih
          ((r.1.propagateFieldWrite d.writeAddr d.writeValue 8 d.seq registry allocs).1,
            if (r.1.propagateFieldWrite d.writeAddr d.writeValue 8 d.seq registry allocs).2
              then r.2 + 1 else r.2)
        rw [List.foldl_cons]
        refine ⟨hrun, hkept.trans hdeferred, ?_, fun heq => ?_⟩
        · refine le_trans ?_ hle
          dsimp only
          split
          · exact Nat.le_succ _
          · exact le_rfl
        · -- a stamp here would be counted, so there was none
          cases hstamped :
              (r.1.propagateFieldWrite d.writeAddr d.writeValue 8 d.seq registry allocs).2 with
          | true =>
              have hcount := hle.trans (le_of_eq heq)
              rw [hstamped] at hcount
              exact absurd hcount (Nat.not_succ_le_self _)
          | false =>
              refine (hsame (heq.trans ?_)).trans (hmap hstamped)
              rw [hstamped]
              rfl
  obtain ⟨hrun, hkept, -, hsame⟩ := hfold m.hits (m.drained, 0)
  exact ⟨hrun, hkept, hsame⟩

theorem handed_length (passes : ℕ) (m : ShadowTypeMap) :
    (handed registry allocs passes m).length ≤ passes := by
  induction passes generalizing m with
  | zero => exact le_rfl
  | succ passes ih =>
      rw [handed, List.length_cons]
      split
      · exact Nat.succ_le_succ (Nat.zero_le _)
      · exact Nat.succ_le_succ (ih _)

theorem hits_perm (m : ShadowTypeMap) : (m.hits ++ m.drained.deferred).Perm m.deferred := by
  have hnot : (fun d : DeferredWrite => (m.coveringFirst d.writeAddr).isNone) =
      fun d => !(m.coveringFirst d.writeAddr).isSome := by
    funext d
    rw [Option.not_isSome]
  rw [hits, drained]
  dsimp only
  rw [hnot]
  exact List.filter_append_perm _ _

theorem replayed_passes (passes : ℕ) (m : ShadowTypeMap) :
    let m' := replayPasses registry allocs passes m
    let ps := handed registry allocs passes m
    m' = ps.foldl (fun m ds => handOver registry allocs ds m.drained) m ∧
      (ps.flatten ++ m'.deferred).Perm m.deferred ∧ (∀ ds ∈ ps, ds.Sublist m.deferred) ∧
      m'.deferred.Sublist m.deferred ∧
      (ps.length < passes → ∀ d ∈ m'.deferred, m'.coveringFirst d.writeAddr = none) := by
  induction passes generalizing m with
  | zero => exact ⟨rfl, List.Perm.refl _, nofun, List.Sublist.refl _, nofun⟩
  | succ passes ih =>
      obtain ⟨hrun, hdeferred, hsame⟩ := replayPass_spec registry allocs m
      obtain ⟨hruns, honce, hordered, hkept, hrest⟩ := ih (m.replayPass registry allocs).1
      have hdrained : m.drained.deferred.Sublist m.deferred := List.filter_sublist
      have hhits : m.hits.Sublist m.deferred := List.filter_sublist
      rw [replayPasses, handed]
      dsimp only
      split
      · rename_i hzero
        refine ⟨hrun, ?_, ?_, hdeferred ▸ hdrained, fun _ d hd => ?_⟩
        · rw [hdeferred]
          simpa using hits_perm m
        · intro ds hds
          rw [List.mem_singleton.mp hds]
          exact hhits
        · rw [hdeferred] at hd
          have hcovered : m.coveringFirst d.writeAddr = none := by
            simpa using (List.mem_filter.mp hd).2
          rw [coveringFirst, hsame hzero]
          exact hcovered
      · refine ⟨hruns.trans (by rw [List.foldl_cons, hrun]), ?_, ?_, ?_, fun hlt => hrest ?_⟩
        · rw [List.flatten_cons, List.append_assoc]
          refine (honce.append_left _).trans ?_
          rw [hdeferred]
          exact hits_perm m
        · intro ds hds
          rcases List.mem_cons.mp hds with rfl | hds
          · exact hhits
          · exact (hordered ds hds).trans (hdeferred ▸ hdrained)
        · exact hkept.trans (hdeferred ▸ hdrained)
        · exact Nat.lt_of_succ_lt_succ hlt

/-- Every replay ends within eight passes, hands over what it drains in its order and keeps the
rest; stopping earlier it leaves nothing to resolve but in arrays of a registered element type. -/
theorem replayDeferred_replayed (registry : Registry) (allocs : HeapAllocTracker)
    (m : ShadowTypeMap) : Replayed registry allocs m (m.replayDeferred registry allocs)
      (handed registry allocs REPLAY_MAX_PASSES m) := by
  obtain ⟨hrun, honce, hordered, hkept, hrest⟩ :=
    @replayed_passes registry allocs REPLAY_MAX_PASSES m
  exact ⟨hrun, handed_length _ _, honce, hordered, hkept,
    fun hlt d hd helement => not_resolvable helement (hrest hlt d hd)⟩

end Replay

/-- A table whose field points to an array of nodes. -/
def tableType : TypeInfo where
  name := "dict"
  byteSize := 16
  fields := [⟨"table", 0, 8, { name := "**node", byteSize := 8, isPointer := true }, 8⟩]

def nodeRegistry : Registry := fun n =>
  if n = "node" then some { name := "node", byteSize := 24 } else none

/-- A slot of the array was written before the field that points to the array. -/
def slotFirst : ShadowTypeMap where
  map := SortedMap.empty.insert 0x1000 ⟨0x1000, tableType, "d", 1⟩
  deferred := [⟨0x2000, 0x3000, 2⟩, ⟨0x1000, 0x2000, 3⟩]

def arrayBlock : HeapAllocTracker := (({} : HeapAllocTracker).onAlloc 0x2000 64).1

/-- The replay registers the array and leaves its slot, which could be resolved now. -/
theorem slot_is_left :
    (handed nodeRegistry arrayBlock REPLAY_MAX_PASSES slotFirst).length = 1 ∧
      (slotFirst.replayDeferred nodeRegistry arrayBlock).deferred = [⟨0x2000, 0x3000, 2⟩] ∧
      (slotFirst.replayDeferred nodeRegistry arrayBlock).Resolvable nodeRegistry arrayBlock
        ⟨0x2000, 0x3000, 2⟩ := by
  refine ⟨by decide +kernel, by decide +kernel, ?_⟩
  rw [Resolvable]
  decide +kernel

theorem not_always_resolved : ¬ ∀ (registry : Registry) (allocs : HeapAllocTracker)
    (m : ShadowTypeMap), (handed registry allocs REPLAY_MAX_PASSES m).length < REPLAY_MAX_PASSES →
      ∀ d ∈ (m.replayDeferred registry allocs).deferred,
        ¬ (m.replayDeferred registry allocs).Resolvable registry allocs d := by
  intro h
  obtain ⟨hlength, hleft, hresolvable⟩ := slot_is_left
  refine h nodeRegistry arrayBlock slotFirst ?_ ⟨0x2000, 0x3000, 2⟩ ?_ hresolvable
  · rw [hlength]
    decide
  · rw [hleft]
    exact List.mem_cons_self

end Rtmap.Engine.ShadowTypeMap
