import Rtmap.Engine.Types

/-!
# The address index

Static intervals sorted by address, one bundle of intervals for each live frame
and an eight-entry cache of the last hits. Where the program leaves an order
open (the iteration of a hash map, equal keys of an unstable sort), the order is
a parameter.
-/
namespace Rtmap.Engine

abbrev FrameId := ℕ

inductive NodeId where
  | global (gi : UInt32)
  | field (gi : UInt32) (fi : UInt16)
  | local (fid : FrameId) (li : UInt16)
deriving DecidableEq, Repr

def NodeId.rank : NodeId → ℕ
  | .local .. => 2
  | .field .. => 1
  | .global .. => 0

structure Interval where
  lo : UInt64
  hi : UInt64
  name : String
  typeInfo : TypeInfo
  nodeId : NodeId

namespace Interval

def contains (iv : Interval) (addr : UInt64) : Bool := addr ≥ iv.lo && addr < iv.hi
def span (iv : Interval) : UInt64 := iv.hi - iv.lo

end Interval

/-- Where a frame's interval is filed: the frame, the position in its bundle, the interval. -/
structure FrameHit where
  frameId : FrameId
  localIdx : ℕ
  interval : Interval

inductive MruEntry where
  | static (lo hi : UInt64) (idx : ℕ)
  | dynamic (lo hi : UInt64) (frameId : FrameId) (localIdx : ℕ)

def MruEntry.contains : MruEntry → UInt64 → Bool
  | .static lo hi _, addr => addr ≥ lo && addr < hi
  | .dynamic lo hi _ _, addr => addr ≥ lo && addr < hi

def MRU_SLOTS : ℕ := 8

structure AddressIndex where
  statics : List Interval := []
  staticsSorted : Bool := true
  dynamics : List (FrameId × List Interval) := []
  mru : List MruEntry := []
  universeLo : UInt64 := -1
  universeHi : UInt64 := 0

/-- The orders that the index does not fix: in which a hash map of frames is
iterated, and how `sort_unstable_by_key` arranges intervals of one start. -/
structure IndexOrders where
  iterate : List (FrameId × List Interval) → List (FrameId × List Interval)
  iterate_perm : ∀ l, (iterate l).Perm l
  sortByLo : List Interval → List Interval
  sortByLo_perm : ∀ l, (sortByLo l).Perm l
  sortByLo_sorted : ∀ l, (sortByLo l).Pairwise fun a b => a.lo ≤ b.lo

/-- The first entry that no later one beats. -/
def pickBest {α : Type} (better : α → α → Bool) (l : List α) : Option α :=
  l.foldl (fun best c =>
    match best with
    | none => some c
    | some b => if better c b then some c else some b) none

namespace AddressIndex

def widenUniverse (idx : AddressIndex) (lo hi : UInt64) : AddressIndex :=
  { idx with
    universeLo := if lo < idx.universeLo then lo else idx.universeLo
    universeHi := if hi > idx.universeHi then hi else idx.universeHi }

def insertStatic (idx : AddressIndex) (addr size : UInt64) (name : String) (typeInfo : TypeInfo)
    (nodeId : NodeId) : AddressIndex :=
  if size = 0 then idx
  else
    let iv : Interval := ⟨addr, addr + size, name, typeInfo, nodeId⟩
    let idx := { idx with statics := idx.statics ++ [iv], staticsSorted := false, mru := [] }
    idx.widenUniverse addr (addr + size)

def insertGlobal (idx : AddressIndex) (addr size : UInt64) (name : String) (typeInfo : TypeInfo)
    (globalIdx : UInt32) : AddressIndex :=
  idx.insertStatic addr size name typeInfo (.global globalIdx)

def insertField (idx : AddressIndex) (addr size : UInt64) (name : String) (typeInfo : TypeInfo)
    (globalIdx : UInt32) (fieldIdx : UInt16) : AddressIndex :=
  idx.insertStatic addr size name typeInfo (.field globalIdx fieldIdx)

/-- The intervals of a frame's locals; locals of no size have none. -/
def frameIntervals (frameId : FrameId) (frameBase : UInt64) (locals : List LocalVar) :
    List Interval :=
  (locals.zipIdx.filter fun l => l.1.size ≠ 0).map fun l =>
    let addr := frameBase + l.1.frameOffset.toUInt64
    ⟨addr, addr + l.1.size, l.1.name, l.1.typeInfo, .local frameId (UInt16.ofNat l.2)⟩

/-- The bundle of a frame. -/
def frame (idx : AddressIndex) (frameId : FrameId) : Option (List Interval) :=
  (idx.dynamics.find? fun f => f.1 = frameId).map Prod.snd

def removeFrame (idx : AddressIndex) (frameId : FrameId) : AddressIndex :=
  { idx with dynamics := idx.dynamics.filter (fun f => f.1 ≠ frameId), mru := [] }

def insertFrameLocals (idx : AddressIndex) (frameId : FrameId) (frameBase : UInt64)
    (locals : List LocalVar) : AddressIndex :=
  let ivs := frameIntervals frameId frameBase locals
  let widened := ivs.foldl (fun i iv => i.widenUniverse iv.lo iv.hi) idx
  if ivs.isEmpty then { widened with mru := [] }
  else
    { widened with
      dynamics := (frameId, ivs) :: idx.dynamics.filter (fun f => f.1 ≠ frameId)
      mru := [] }

def finalize (orders : IndexOrders) (idx : AddressIndex) : AddressIndex :=
  if idx.staticsSorted then idx
  else { idx with statics := orders.sortByLo idx.statics, staticsSorted := true, mru := [] }

def inUniverse (idx : AddressIndex) (addr : UInt64) : Bool :=
  addr ≥ idx.universeLo && addr < idx.universeHi

/-- Among the frames' intervals over the address, the first of least span. -/
def lookupDynamics (orders : IndexOrders) (idx : AddressIndex) (addr : UInt64) : Option FrameHit :=
  let hits := (orders.iterate idx.dynamics).flatMap fun f =>
    (f.2.zipIdx.filter fun iv => iv.1.contains addr).map fun iv => ⟨f.1, iv.2, iv.1⟩
  pickBest (fun (a b : FrameHit) => a.interval.span < b.interval.span) hits

/-- Among the static intervals that start where the last one at or below the
address starts, walked backwards: the first of highest rank, then of least span. -/
def lookupStatics (idx : AddressIndex) (addr : UInt64) : Option (Interval × ℕ) :=
  let below := (idx.statics.zipIdx.takeWhile fun iv => iv.1.lo ≤ addr).reverse
  match below with
  | [] => none
  | last :: _ =>
      let group := below.takeWhile fun iv => iv.1.lo = last.1.lo
      pickBest (fun (a b : Interval × ℕ) => a.1.nodeId.rank > b.1.nodeId.rank ||
          (a.1.nodeId.rank == b.1.nodeId.rank && a.1.span < b.1.span))
        (group.filter fun iv => addr < iv.1.hi)

def pushMru (idx : AddressIndex) (e : MruEntry) : AddressIndex :=
  { idx with mru := e :: idx.mru.take (MRU_SLOTS - 1) }

def resolveMru (idx : AddressIndex) : MruEntry → Option Interval
  | .static _ _ i => idx.statics[i]?
  | .dynamic _ _ frameId localIdx => (idx.frame frameId).bind (·[localIdx]?)

/-- `lookup`: a cache hit moves to the front; a miss asks the frames, then the
statics, and is cached. -/
def lookup (orders : IndexOrders) (idx : AddressIndex) (addr : UInt64) :
    AddressIndex × Option Interval :=
  if !idx.inUniverse addr then (idx, none)
  else
    match idx.mru.dropWhile fun e => !e.contains addr with
    | e :: back =>
        let idx := { idx with mru := e :: (idx.mru.takeWhile (fun e => !e.contains addr) ++ back) }
        (idx, idx.resolveMru e)
    | [] =>
        match lookupDynamics orders idx addr with
        | some h =>
            (idx.pushMru (.dynamic h.interval.lo h.interval.hi h.frameId h.localIdx),
              some h.interval)
        | none =>
            match idx.lookupStatics addr with
            | some (iv, i) => (idx.pushMru (.static iv.lo iv.hi i), some iv)
            | none => (idx, none)

section Frames
variable {idx : AddressIndex} {orders : IndexOrders}

/-- A lookup touches the cache only. -/
@[simp] theorem lookup_dynamics (addr : UInt64) :
    (idx.lookup orders addr).1.dynamics = idx.dynamics := by
  rw [lookup]
  split
  · rfl
  · split
    · rfl
    · split
      · rfl
      · split <;> rfl

@[simp] theorem lookup_staticsSorted (addr : UInt64) :
    (idx.lookup orders addr).1.staticsSorted = idx.staticsSorted := by
  rw [lookup]
  split
  · rfl
  · split
    · rfl
    · split
      · rfl
      · split <;> rfl

@[simp] theorem widenUniverse_dynamics (lo hi : UInt64) :
    (idx.widenUniverse lo hi).dynamics = idx.dynamics := rfl

@[simp] theorem insertStatic_dynamics (addr size : UInt64) (name : String) (typeInfo : TypeInfo)
    (nodeId : NodeId) :
    (idx.insertStatic addr size name typeInfo nodeId).dynamics = idx.dynamics := by
  rw [insertStatic]
  split <;> rfl

@[simp] theorem finalize_dynamics : (idx.finalize orders).dynamics = idx.dynamics := by
  rw [finalize]
  split <;> rfl

theorem staticsSorted_finalize : (idx.finalize orders).staticsSorted = true := by
  rw [finalize]
  split
  · assumption
  · rfl

theorem finalize_of_sorted (h : idx.staticsSorted = true) : idx.finalize orders = idx := by
  rw [finalize, if_pos h]

@[simp] theorem frame_removeFrame (fid k : FrameId) :
    (idx.removeFrame fid).frame k = if k = fid then none else idx.frame k := by
  simp only [removeFrame, frame, List.find?_filter]
  split
  · rename_i hk
    subst hk
    simp
  · rename_i hk
    congr 2
    funext f
    by_cases hf : f.1 = k
    · simp [hf, hk]
    · simp [hf]

theorem foldl_widenUniverse_dynamics (ivs : List Interval) (idx : AddressIndex) :
    (ivs.foldl (fun i iv => i.widenUniverse iv.lo iv.hi) idx).dynamics = idx.dynamics := by
  induction ivs generalizing idx with
  | nil => rfl
  | cons iv ivs ih => rw [List.foldl_cons, ih, widenUniverse_dynamics]

/-- The frames held after a frame's locals are inserted; a frame whose locals
all lack a size is not held. -/
theorem frame_insertFrameLocals (fid : FrameId) (base : UInt64) (locals : List LocalVar)
    (k : FrameId) :
    (idx.insertFrameLocals fid base locals).frame k =
      if k = fid ∧ frameIntervals fid base locals ≠ [] then some (frameIntervals fid base locals)
      else idx.frame k := by
  simp only [insertFrameLocals, frame]
  split
  · rename_i hempty
    have hnil : frameIntervals fid base locals = [] := by simpa using hempty
    simp [hnil]
  · rename_i hne
    have hcons : frameIntervals fid base locals ≠ [] := by simpa using hne
    by_cases hk : k = fid
    · subst hk
      simp [hcons]
    · have hfk : fid ≠ k := Ne.symm hk
      simp only [List.find?_cons, hfk, decide_false, hk, false_and, if_false, List.find?_filter]
      congr 2
      funext f
      by_cases hf : f.1 = k
      · simp [hf, hk]
      · simp [hf]

end Frames

end AddressIndex

end Rtmap.Engine
