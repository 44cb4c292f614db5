import Rtmap.Engine.EpochLog
import Rtmap.Engine.Relocation

/-!
# Stamps that displace

Which projections the stamps of a replay and of a population displace, by the map
they start from. A projection that none of them displaces stays where it is.
-/
namespace Rtmap.Engine
open Rtmap.Ring

namespace ShadowTypeMap

/-- A stamp of the type displaces the projection at the address. -/
def displaces (m : ShadowTypeMap) (addr : UInt64) (ti : TypeInfo) (seq : ℕ) : Bool :=
  addr != 0 && (m.lookup addr).any fun p =>
    ti.byteSize != 0 && p.typeInfo.name != ti.name && p.stampSeq ≤ seq

/-- A field write displaces a projection at a tracked address: that of a pointer array,
which takes the array's element type. -/
def takes (m : ShadowTypeMap) (addr value : UInt64) (size : UInt32) (seq : ℕ)
    (allocs : HeapAllocTracker) : Bool :=
  size == 8 && (allocs.allocSize value).isSome &&
    (m.indirectLookup addr allocs).any fun element => m.displaces value element seq

section Replay
variable (registry : Registry) (allocs : HeapAllocTracker)

/-- One of the deferred writes displaces, at its turn. -/
def hitsTake : List DeferredWrite → ShadowTypeMap → Bool
  | [], _ => false
  | d :: ds, m =>
      m.takes d.writeAddr d.writeValue 8 d.seq allocs || hitsTake ds
        (m.propagateFieldWrite d.writeAddr d.writeValue 8 d.seq registry allocs).1

/-- A pass over the deferred writes displaces. -/
def passTakes (m : ShadowTypeMap) : Bool :=
  hitsTake registry allocs (m.deferred.filter fun d => (m.coveringFirst d.writeAddr).isSome)
    { m with deferred := m.deferred.filter fun d => (m.coveringFirst d.writeAddr).isNone }

/-- One of the passes of a replay displaces. -/
def passesTake : ℕ → ShadowTypeMap → Bool
  | 0, _ => false
  | passes + 1, m =>
      m.passTakes registry allocs ||
        ((m.replayPass registry allocs).2 != 0 &&
          passesTake passes (m.replayPass registry allocs).1)

/-- The replay of the deferred writes displaces. -/
def replayTakes (m : ShadowTypeMap) : Bool := passesTake registry allocs REPLAY_MAX_PASSES m

end Replay

variable {m : ShadowTypeMap} {addr value b : UInt64} {size : UInt32} {ti : TypeInfo} {seq : ℕ}
  {allocs : HeapAllocTracker} {registry : Registry} {p : TypeProjection}

theorem displaces_eq (m : ShadowTypeMap) (addr : UInt64) (ti : TypeInfo) (source : String)
    (seq : ℕ) : m.displaces addr ti seq = (m.stampType addr ti source seq).2.displaced.isSome := by
  by_cases haddr : addr = 0
  · rw [displaces, haddr, stampType, if_pos (.inl rfl)]
    rfl
  · rw [displaced_stampType m haddr, displaces, bne_iff_ne.mpr haddr, Option.isSome_map]
    cases m.lookup addr with
    | none => rfl
    | some q =>
        simp only [Option.any_some, Option.filter, Bool.true_and]
        split <;> rename_i hcond
        · exact hcond
        · exact Bool.eq_false_iff.mpr hcond

/-- A stamp keeps the projections of the other addresses, and of its own where it displaces
nothing. -/
theorem lookup_stampType_kept (source : String)
    (h : b = addr → m.displaces addr ti seq = false) (hp : m.lookup b = some p) :
    (m.stampType addr ti source seq).1.lookup b = some p := by
  by_cases hb : b = addr
  · have hkeeps := h hb
    subst hb
    rw [displaces_eq m b ti source seq] at hkeeps
    rw [lookup] at hp
    rw [stampType] at hkeeps ⊢
    split at hkeeps
    · rename_i hbad
      rw [if_pos hbad]
      exact hp
    · rename_i hgood
      simp only [hp] at hkeeps
      simp only [if_neg hgood, hp]
      split at hkeeps
      · rename_i hname
        simp only [if_pos hname, lookup, hp]
      · split at hkeeps
        · rename_i hname hseq
          simp only [if_neg hname, if_pos hseq, lookup, hp]
        · split at hkeeps <;> cases hkeeps
  · rw [lookup_stampType_ne hb]
    exact hp

/-- The first stamp that displaces a projection of the address is a schism. -/
theorem stampType_schism (source : String) (h : m.displaces addr ti seq = true)
    (hfirst : m.addrSchisms addr = 0) (hp : m.lookup addr = some p) :
    (m.stampType addr ti source seq).2 = .schism p.oldStamp := by
  rw [displaces, hp, Option.any_some] at h
  simp only [Bool.and_eq_true, bne_iff_ne, decide_eq_true_eq] at h
  obtain ⟨haddr, ⟨hsize, hname⟩, hseq⟩ := h
  rw [lookup] at hp
  have hold : ¬ p.stampSeq > seq := by omega
  simp only [stampType, haddr, hsize, or_self, if_false, hp, hname, hold, hfirst, Nat.zero_add]
  rfl

/-- A write that stores a pointer stamps no projection of another type. -/
theorem lookup_propagatePointer (field : FieldInfo) (hp : m.lookup b = some p) :
    (m.propagatePointer field value seq registry).1.lookup b = some p := by
  rcases propagatePointer_cases m field value seq registry with
    heq | ⟨pointee, hsame, heq⟩ | ⟨ti, heq⟩
  · rw [heq]
    exact hp
  · rw [heq]
    refine lookup_stampType_kept field.name (fun _ => ?_) hp
    rw [displaces, lookup]
    cases hget : m.map.get? value with
    | none => simp
    | some q =>
        rw [hget] at hsame
        have hname : q.typeInfo.name = pointee.name := by simpa using hsame
        simp [hname]
  · rw [heq]
    exact hp

/-- A field write moves a projection only as an element of a pointer array. -/
theorem lookup_propagateFieldWrite_of (h : value = b → size = 8 → ∀ element,
    m.indirectLookup addr allocs = some element → m.displaces b element seq = false)
    (hp : m.lookup b = some p) :
    (m.propagateFieldWrite addr value size seq registry allocs).1.lookup b = some p := by
  rcases propagateFieldWrite_cases m addr value size seq registry allocs with
    heq | ⟨⟨hsize, -⟩, ⟨element, helement, heq⟩ | ⟨field, heq⟩⟩
  · rw [heq]
    exact hp
  · rw [heq]
    refine lookup_stampType_kept "<indirect>" (fun hvalue => ?_) hp
    rw [← hvalue]
    exact h hvalue.symm hsize element helement
  · rw [heq]
    exact lookup_propagatePointer _ hp

theorem lookup_propagateFieldWrite (h : m.takes addr value size seq allocs = false)
    (hb : (allocs.allocSize b).isSome) (hp : m.lookup b = some p) :
    (m.propagateFieldWrite addr value size seq registry allocs).1.lookup b = some p := by
  refine lookup_propagateFieldWrite_of (fun hvalue hsize element helement => ?_) hp
  rw [← hvalue] at hb ⊢
  simpa [takes, hsize, hb, helement] using h

/-- A stamp that is applied and displaces nothing finds no projection. -/
theorem lookup_of_applied (source : String)
    (happlied : (m.stampType addr ti source seq).2.applied = true)
    (h : m.displaces addr ti seq = false) : m.lookup addr = none := by
  rw [displaces_eq m addr ti source seq] at h
  rw [stampType] at happlied h
  split at happlied
  · cases happlied
  · rename_i hgood
    rw [if_neg hgood] at h
    split at happlied
    · rename_i hnone
      exact hnone
    · rename_i hsome
      simp only [hsome] at h
      split at happlied
      · cases happlied
      · rename_i hname
        rw [if_neg hname] at h
        split at happlied
        · cases happlied
        · rename_i hseq
          rw [if_neg hseq] at h
          split at h <;> cases h

theorem lookup_of_propagatedPointer {field : FieldInfo}
    (happlied : (m.propagatePointer field value seq registry).2 = true) :
    m.lookup value = none := by
  rcases propagatePointer_cases m field value seq registry with
    heq | ⟨pointee, -, heq⟩ | ⟨ti, heq⟩
  · rw [heq] at happlied
    cases happlied
  · rw [heq] at happlied
    have hstamped := eq_of_beq happlied
    have hkeeps : m.displaces value pointee seq = false := by
      rw [displaces_eq m value pointee field.name, hstamped]
      rfl
    exact lookup_of_applied field.name (by rw [hstamped]; rfl) hkeeps
  · rw [heq] at happlied
    cases happlied

/-- A field write that stamps a tracked address and displaces nothing finds no projection. -/
theorem lookup_of_propagated
    (happlied : (m.propagateFieldWrite addr value size seq registry allocs).2 = true)
    (h : m.takes addr value size seq allocs = false) (hb : (allocs.allocSize value).isSome) :
    m.lookup value = none := by
  rcases propagateFieldWrite_cases m addr value size seq registry allocs with
    heq | ⟨⟨hsize, -⟩, ⟨element, helement, heq⟩ | ⟨field, heq⟩⟩
  · rw [heq] at happlied
    cases happlied
  · rw [heq] at happlied
    have hkeeps : m.displaces value element seq = false := by
      simpa [takes, hsize, hb, helement] using h
    exact lookup_of_applied "<indirect>" happlied hkeeps
  · rw [heq] at happlied
    exact lookup_of_propagatedPointer happlied

theorem lookup_replayPass (h : m.passTakes registry allocs = false)
    (hb : (allocs.allocSize b).isSome) (hp : m.lookup b = some p) :
    (m.replayPass registry allocs).1.lookup b = some p := by
  have hfold (hits : List DeferredWrite) : ∀ r : ShadowTypeMap × ℕ,
      hitsTake registry allocs hits r.1 = false → r.1.lookup b = some p →
      (hits.foldl (fun r d =>
        let q := r.1.propagateFieldWrite d.writeAddr d.writeValue 8 d.seq registry allocs
        (q.1, if q.2 then r.2 + 1 else r.2)) r).1.lookup b = some p := by
    induction hits with
    | nil => exact fun r _ hr => hr
    | cons d hits ih =>
        intro r htake hr
        rw [hitsTake, Bool.or_eq_false_iff] at htake
        exact ih _ htake.2 (lookup_propagateFieldWrite htake.1 hb hr)
  exact hfold _ _ h hp

/-- A replay that displaces nothing leaves the projections of the tracked blocks. -/
theorem lookup_replayDeferred (h : m.replayTakes registry allocs = false)
    (hb : (allocs.allocSize b).isSome) (hp : m.lookup b = some p) :
    (m.replayDeferred registry allocs).lookup b = some p := by
  have hpasses (passes : ℕ) : ∀ m : ShadowTypeMap, passesTake registry allocs passes m = false →
      m.lookup b = some p → (replayPasses registry allocs passes m).lookup b = some p := by
    induction passes with
    | zero => exact fun m _ hm => hm
    | succ passes ih =>
        intro m htake hm
        rw [passesTake, Bool.or_eq_false_iff] at htake
        have hpass := lookup_replayPass htake.1 hb hm
        simp only [replayPasses]
        split
        · exact hpass
        · rename_i hmore
          refine ih _ ?_ hpass
          simpa [hmore] using htake.2
  exact hpasses _ m h hp

end ShadowTypeMap

section Globals
variable {allocs : HeapAllocTracker} {b : UInt64} {p : TypeProjection}

/-- One of the globals, each with its load delta, is stamped in the place of another
type at a tracked address. -/
def globalsTake (allocs : HeapAllocTracker) : List (GlobalVar × UInt64) → ShadowTypeMap → Bool
  | [], _ => false
  | g :: gs, m =>
      if g.1.isStruct then
        (allocs.allocSize (g.1.addr + g.2)).isSome &&
            m.displaces (g.1.addr + g.2) g.1.typeInfo 0 ||
          globalsTake allocs gs (m.stampType (g.1.addr + g.2) g.1.typeInfo g.1.name 0).1
      else globalsTake allocs gs m

theorem lookup_populated (replace : Bool) (hb : (allocs.allocSize b).isSome)
    (gs : List (GlobalVar × UInt64)) (n : ℕ) (r : AddressIndex × World)
    (h : globalsTake allocs gs r.2.stm = false) (hp : r.2.stm.lookup b = some p) :
    ((gs.zipIdx n).foldl (fun r g => populateGlobal replace g.1.1 g.1.2 (UInt32.ofNat g.2) r.1 r.2)
      r).2.stm.lookup b = some p := by
  induction gs generalizing n r with
  | nil => exact hp
  | cons g gs ih =>
      rw [List.zipIdx_cons, List.foldl_cons]
      rw [globalsTake] at h
      refine ih (n + 1) _ ?_ ?_
      · rw [stm_populateGlobal]
        split
        · rename_i hstruct
          rw [if_pos hstruct, Bool.or_eq_false_iff] at h
          exact h.2
        · rename_i hstruct
          rw [if_neg hstruct] at h
          exact h
      · rw [stm_populateGlobal]
        split
        · rename_i hstruct
          rw [if_pos hstruct, Bool.or_eq_false_iff] at h
          refine ShadowTypeMap.lookup_stampType_kept g.1.name (fun hbase => ?_) hp
          rw [hbase] at hb
          simpa [hb] using h.1
        · exact hp

end Globals

end Rtmap.Engine
