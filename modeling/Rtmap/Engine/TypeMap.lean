import Mathlib.Data.List.Sort
import Rtmap.Engine.HeapGraph

/-!
# Live allocations and the shadow type map

`HeapAllocTracker` holds the blocks between ALLOC and FREE. `ShadowTypeMap` holds
the type projected at each address, the element types of pointer arrays and the
pointer writes that no projection covered yet.
-/
namespace Rtmap.Engine

structure Allocation where
  size : UInt64
  seq : ℕ
deriving DecidableEq, Repr

structure HeapAllocTracker where
  allocs : SortedMap UInt64 Allocation := SortedMap.empty
  totalAllocs : ℕ := 0

namespace HeapAllocTracker

def allocSize (t : HeapAllocTracker) (addr : UInt64) : Option UInt64 :=
  (t.allocs.get? addr).map Allocation.size

def allocSeq (t : HeapAllocTracker) (addr : UInt64) : Option ℕ :=
  (t.allocs.get? addr).map Allocation.seq

/-- `on_alloc`: track the block under the next allocation number; the size it
had if the address was tracked already. -/
def onAlloc (t : HeapAllocTracker) (addr size : UInt64) : HeapAllocTracker × Option UInt64 :=
  ({ allocs := t.allocs.insert addr ⟨size, t.totalAllocs⟩, totalAllocs := t.totalAllocs + 1 },
    t.allocSize addr)

/-- `on_free`. -/
def onFree (t : HeapAllocTracker) (addr : UInt64) : HeapAllocTracker × Option UInt64 :=
  ({ t with allocs := t.allocs.erase addr }, t.allocSize addr)

/-- `containing_alloc`: the block that starts last at or below the address, if it spans it. -/
def containingAlloc (t : HeapAllocTracker) (addr : UInt64) : Option (UInt64 × UInt64) :=
  match t.allocs.floor addr with
  | some (base, a) => if addr < saturatingAdd base a.size then some (base, a.size) else none
  | none => none

end HeapAllocTracker

structure TypeProjection where
  baseAddr : UInt64
  typeInfo : TypeInfo
  sourceName : String
  stampSeq : ℕ

def TypeProjection.covers (p : TypeProjection) (addr : UInt64) : Bool :=
  addr < p.baseAddr + p.typeInfo.byteSize

/-- The projection that a stamp displaced. -/
structure OldStamp where
  type : String
  source : String
  stampSeq : ℕ
deriving DecidableEq, Repr

inductive StampResult where
  | stamped
  | restamped
  | schism (old : OldStamp)
  | poolReuse (old : OldStamp)
  | rejected
deriving DecidableEq, Repr

/-- A projection was written. -/
def StampResult.applied : StampResult → Bool
  | .stamped | .schism _ | .poolReuse _ => true
  | .restamped | .rejected => false

structure DeferredWrite where
  writeAddr : UInt64
  writeValue : UInt64
  seq : ℕ
deriving DecidableEq, Repr

def DEFERRED_CAP : ℕ := 4096
def REPLAY_MAX_PASSES : ℕ := 8

structure ShadowTypeMap where
  map : SortedMap UInt64 TypeProjection := SortedMap.empty
  indirect : UInt64 → Option TypeInfo := fun _ => none
  deferred : List DeferredWrite := []
  addrSchisms : UInt64 → ℕ := fun _ => 0
  schismCount : ℕ := 0
  poolReuseCount : ℕ := 0

namespace ShadowTypeMap

def lookup (m : ShadowTypeMap) (addr : UInt64) : Option TypeProjection := m.map.get? addr

/-- Project a type on an address whatever is there. -/
def project (m : ShadowTypeMap) (addr : UInt64) (ti : TypeInfo) (source : String) (seq : ℕ) :
    ShadowTypeMap :=
  { m with map := m.map.insert addr ⟨addr, ti, source, seq⟩ }

/-- `stamp_type`: a projection of another type is replaced unless its stamp has
the higher number; the second replacement at an address counts as pool reuse. -/
def stampType (m : ShadowTypeMap) (addr : UInt64) (ti : TypeInfo) (source : String) (seq : ℕ) :
    ShadowTypeMap × StampResult :=
  if addr = 0 ∨ ti.byteSize = 0 then (m, .rejected)
  else
    match m.map.get? addr with
    | none => (m.project addr ti source seq, .stamped)
    | some existing =>
        if existing.typeInfo.name = ti.name then (m, .restamped)
        else if existing.stampSeq > seq then (m, .rejected)
        else
          let hits := m.addrSchisms addr + 1
          let old : OldStamp := ⟨existing.typeInfo.name, existing.sourceName, existing.stampSeq⟩
          let m := { m with addrSchisms := Function.update m.addrSchisms addr hits }
          if hits ≥ 2 then
            ({ m with poolReuseCount := m.poolReuseCount + 1 }.project addr ti source seq,
              .poolReuse old)
          else
            ({ m with schismCount := m.schismCount + 1 }.project addr ti source seq, .schism old)

/-- `defer_write`: a bounded queue, the oldest entry goes first. -/
def deferWrite (m : ShadowTypeMap) (d : DeferredWrite) : ShadowTypeMap :=
  { m with
    deferred := (if m.deferred.length ≥ DEFERRED_CAP then m.deferred.drop 1 else m.deferred) ++ [d] }

/-- Outside `[addr, addr + size)`, the upper end saturating. -/
def outside (addr size x : UInt64) : Bool := x < addr || x ≥ saturatingAdd addr size

def purgeRange (m : ShadowTypeMap) (addr size : UInt64) : ShadowTypeMap :=
  { m with map := m.map.retain fun _ p => outside addr size p.baseAddr }

def purgeIndirect (m : ShadowTypeMap) (addr size : UInt64) : ShadowTypeMap :=
  { m with indirect := fun base => if outside addr size base then m.indirect base else none }

def purgeDeferred (m : ShadowTypeMap) (addr size : UInt64) : ShadowTypeMap :=
  { m with deferred := m.deferred.filter fun d => outside addr size d.writeAddr }

/-- The projection that starts last at or below the address, if it spans it. -/
def coveringFirst (m : ShadowTypeMap) (addr : UInt64) : Option TypeProjection :=
  match m.map.floor addr with
  | some (_, p) => if p.covers addr then some p else none
  | none => none

/-- `covering`: one step further back when the first projection does not span the address. -/
def covering (m : ShadowTypeMap) (addr : UInt64) : Option TypeProjection :=
  (((m.map.upTo addr).take 2).map Prod.snd).find? fun p => p.covers addr

/-- `indirect_lookup`: the element type registered for the block around the address. -/
def indirectLookup (m : ShadowTypeMap) (addr : UInt64) (allocs : HeapAllocTracker) :
    Option TypeInfo :=
  match allocs.containingAlloc addr with
  | some (base, size) => if addr ≥ base + size then none else m.indirect base
  | none => none

/-- `max_by_key`: the last of the greatest. -/
def largest (fields : List FieldInfo) : Option FieldInfo :=
  fields.foldl (fun best f =>
    match best with
    | none => some f
    | some b => if f.byteSize ≥ b.byteSize then some f else some b) none

/-- The field a pointer write at `offset` goes to: of a union's members the one
of eight bytes, else the largest. -/
def fieldMatch (ti : TypeInfo) (offset : UInt64) : Option FieldInfo :=
  match ti.fields.filter fun f => f.byteOffset == offset && f.name != "<pointee>" with
  | [] => none
  | [f] => some f
  | candidates => (candidates.find? fun f => f.byteSize == 8).orElse fun _ => largest candidates

/-- A pointer stored in a pointer field: stamp the pointee where no other type
is projected, or register the element type of a pointer array. -/
def propagatePointer (m : ShadowTypeMap) (field : FieldInfo) (value : UInt64) (seq : ℕ)
    (registry : Registry) : ShadowTypeMap × Bool :=
  let pointeeName := (stripPointer field.typeInfo.name).getD ""
  match registry pointeeName with
  | some pointee =>
      if (m.map.get? value).any fun p => p.typeInfo.name ≠ pointee.name then (m, false)
      else
        let r := m.stampType value pointee field.name seq
        (r.1, r.2 == .stamped)
  | none =>
      match stripPointer pointeeName with
      | none => (m, false)
      | some inner =>
          match registry inner with
          | some ti => ({ m with indirect := Function.update m.indirect value (some ti) }, false)
          | none => (m, false)

/-- The covering projection is used: no allocation is tracked at its base or the
stamp number reaches the allocation's. -/
def fresh (p : TypeProjection) (allocs : HeapAllocTracker) : Bool :=
  match allocs.allocSeq p.baseAddr with
  | some allocSeq => !(p.stampSeq < allocSeq)
  | none => true

/-- `propagate_field_write`, with whether it stamped. -/
def propagateFieldWrite (m : ShadowTypeMap) (addr value : UInt64) (size : UInt32) (seq : ℕ)
    (registry : Registry) (allocs : HeapAllocTracker) : ShadowTypeMap × Bool :=
  if size ≠ 8 ∨ value = 0 then (m, false)
  else
    match m.indirectLookup addr allocs with
    | some element =>
        let r := m.stampType value element "<indirect>" seq
        (r.1, r.2.applied)
    | none =>
        match m.coveringFirst addr with
        | none => (m, false)
        | some p =>
            if !fresh p allocs then (m, false)
            else
              match fieldMatch p.typeInfo (addr - p.baseAddr) with
              | some field =>
                  if field.typeInfo.isPointer then m.propagatePointer field value seq registry
                  else (m, false)
              | none => (m, false)

/-- One pass over the deferred writes that a projection covers by now. -/
def replayPass (m : ShadowTypeMap) (registry : Registry) (allocs : HeapAllocTracker) :
    ShadowTypeMap × ℕ :=
  let hits := m.deferred.filter fun d => (m.coveringFirst d.writeAddr).isSome
  let m := { m with deferred := m.deferred.filter fun d => (m.coveringFirst d.writeAddr).isNone }
  hits.foldl (fun r d =>
    let p := r.1.propagateFieldWrite d.writeAddr d.writeValue 8 d.seq registry allocs
    (p.1, if p.2 then r.2 + 1 else r.2)) (m, 0)

/-- `replay_deferred`: passes until one stamps nothing. -/
def replayPasses (registry : Registry) (allocs : HeapAllocTracker) :
    ℕ → ShadowTypeMap → ShadowTypeMap
  | 0, m => m
  | passes + 1, m =>
      let r := m.replayPass registry allocs
      if r.2 = 0 then r.1 else replayPasses registry allocs passes r.1

def replayDeferred (m : ShadowTypeMap) (registry : Registry) (allocs : HeapAllocTracker) :
    ShadowTypeMap :=
  replayPasses registry allocs REPLAY_MAX_PASSES m

/-- Eight bytes of the target's memory, where it can be read. -/
abbrev Memory := UInt64 → Option UInt64

/-- What a scan reads: the heap graph, the live blocks, the registry and, when
the target can be opened, its memory. -/
structure ScanSource where
  heapGraph : HeapGraph
  allocs : HeapAllocTracker
  registry : Registry
  mem : Option Memory

namespace ScanSource

/-- The heap-graph object over an address, with its base. -/
def objectAt (src : ScanSource) (addr : UInt64) : Option (UInt64 × HeapObject) :=
  (src.heapGraph.findObjectBase addr).bind fun base =>
    (src.heapGraph.objects.get? base).map fun obj => (base, obj)

/-- A field's last value: as recorded in the heap graph, else as read from memory. -/
def fieldValue (src : ScanSource) (base offset : UInt64) : Option UInt64 :=
  let recorded := (src.objectAt base).bind fun o =>
    ((o.2.fields.get? ((base - o.1) + offset)).map HeapFieldInfo.lastValue).filter (· ≠ 0)
  recorded.orElse fun _ => src.mem.bind fun m => (m (base + offset)).filter (· ≠ 0)

/-- The value may be followed: a live block starts there, or memory is read live
and the value is aligned. -/
def plausibleTarget (src : ScanSource) (value : UInt64) : Bool :=
  (src.allocs.allocSize value).isSome ||
    (src.mem.isSome && value > 0x1000 && value &&& 0x7 == 0)

end ScanSource

structure Candidate where
  name : String
  value : UInt64
  typeInfo : TypeInfo

/-- One pointer field of a scanned object: a candidate to stamp, or an element
type to register. -/
def scanField (src : ScanSource) (base : UInt64) (r : ShadowTypeMap × List Candidate)
    (f : FieldInfo) : ShadowTypeMap × List Candidate :=
  if !f.typeInfo.isPointer || f.byteSize != 8 then r
  else
    match src.fieldValue base f.byteOffset with
    | none => r
    | some value =>
        let pointeeName := (stripPointer f.typeInfo.name).getD ""
        match src.registry pointeeName with
        | some ti =>
            if r.1.map.contains value || !src.plausibleTarget value then r
            else (r.1, r.2 ++ [⟨f.name, value, ti⟩])
        | none =>
            match (stripPointer pointeeName).bind src.registry with
            | some inner =>
                if src.plausibleTarget value && (r.1.indirect value).isNone then
                  ({ r.1 with indirect := Function.update r.1.indirect value (some inner) }, r.2)
                else r
            | none => r

structure Scan where
  types : ShadowTypeMap
  queue : List UInt64
  visited : List UInt64
  stamped : ℕ

/-- Stamp a candidate not visited before and queue it. -/
def scanCandidate (seq : ℕ) (s : Scan) (c : Candidate) : Scan :=
  if c.value ∈ s.visited then s
  else
    { types := (s.types.stampType c.value c.typeInfo c.name seq).1
      queue := s.queue ++ [c.value]
      visited := c.value :: s.visited
      stamped := s.stamped + 1 }

/-- Scan one object: its candidates in the order of the field names. -/
def scanObject (src : ScanSource) (seq : ℕ) (base : UInt64) (s : Scan) : Scan :=
  match s.types.lookup base with
  | none => s
  | some p =>
      let r := p.typeInfo.fields.foldl (scanField src base) (s.types, [])
      (r.2.insertionSort fun a b => a.name ≤ b.name).foldl (scanCandidate seq)
        { s with types := r.1 }

/-- The breadth-first loop. Each pass over an object that stamps less than `fuel`
takes one address off the queue and each stamp puts one on, so that `fuel + 1`
rounds suffice. -/
def scanLoop (src : ScanSource) (seq fuel : ℕ) : ℕ → Scan → Scan
  | 0, s => s
  | rounds + 1, s =>
      match s.queue with
      | [] => s
      | base :: queue =>
          if s.stamped ≥ fuel then s
          else scanLoop src seq fuel rounds (scanObject src seq base { s with queue := queue })

/-- The scan's budget: four stamps for each pointer field of the seed's type, from 64 to 256. -/
def scanFuel (m : ShadowTypeMap) (seed : UInt64) : ℕ :=
  match m.lookup seed with
  | some p =>
      min (max ((p.typeInfo.fields.filter fun f =>
        f.typeInfo.isPointer && f.byteSize == 8).length * 4) 64) 256
  | none => 64

/-- `retrospective_scan`. -/
def retrospectiveScan (m : ShadowTypeMap) (src : ScanSource) (seed : UInt64) (seq : ℕ) :
    ShadowTypeMap :=
  let fuel := m.scanFuel seed
  (scanLoop src seq fuel (fuel + 1) ⟨m, [seed], [seed], 0⟩).types

end ShadowTypeMap

end Rtmap.Engine
