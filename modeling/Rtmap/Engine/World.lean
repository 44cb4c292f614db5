import Rtmap.Engine.AddressIndex
import Rtmap.Engine.ShadowRegs
import Rtmap.Engine.TypeMap

/-!
# The world state

Variable nodes and pointer edges, the cache-line writers, the type epochs, the
field-boundary monitor and the bounds check of heap writes. Counters and tallies
that only reports read are left out.
-/
namespace Rtmap.Engine

structure Node where
  name : String
  typeInfo : TypeInfo
  addr : UInt64
  size : UInt64
  rawValue : UInt64 := 0
  lastWriteInsn : ℕ := 0

structure PointerEdge where
  source : NodeId
  target : NodeId
  ptrValue : UInt64
  isDangling : Bool
deriving DecidableEq, Repr

def CL_SHIFT : UInt64 := 6
def CL_SLOTS : ℕ := 16384

structure ClSlot where
  clAddr : UInt64 := 0
  writeCount : UInt16 := 0
  writers : UInt16 := 0
  perWriter : Fin 16 → UInt16 := fun _ => 0

abbrev ClTracker := Fin CL_SLOTS → ClSlot

/-- `u16::saturating_add(1)`. -/
def satSucc (n : UInt16) : UInt16 := if n = -1 then n else n + 1

namespace ClTracker

def line (addr : UInt64) : UInt64 := addr >>> CL_SHIFT

def index (addr : UInt64) : Fin CL_SLOTS := ⟨(line addr).toNat % CL_SLOTS, Nat.mod_lt _ (by decide)⟩

/-- A thread's bit in the writer mask: its id modulo 16. -/
def writerIndex (tid : UInt16) : Fin 16 := ⟨tid.toNat % 16, Nat.mod_lt _ (by decide)⟩

def writerBit (tid : UInt16) : UInt16 := 1 <<< UInt16.ofNat (writerIndex tid).val

/-- `record_write` on the line's slot: a slot of another line starts over. -/
def recordSlot (s : ClSlot) (addr : UInt64) (tid : UInt16) : ClSlot :=
  if s.clAddr ≠ line addr then
    { clAddr := line addr
      writeCount := 1
      writers := writerBit tid
      perWriter := Function.update (fun _ => 0) (writerIndex tid) 1 }
  else
    { s with
      writeCount := satSucc s.writeCount
      writers := s.writers ||| writerBit tid
      perWriter := Function.update s.perWriter (writerIndex tid)
        (satSucc (s.perWriter (writerIndex tid))) }

/-- `record_write`, with the writers of the line. -/
def recordWrite (t : ClTracker) (addr : UInt64) (tid : UInt16) : ClTracker × UInt16 :=
  let s := recordSlot (t (index addr)) addr tid
  (Function.update t (index addr) s, s.writers)

/-- `tick` on a slot: counts are halved and writers without a count go. -/
def tickSlot (s : ClSlot) : ClSlot :=
  let count := s.writeCount >>> 1
  if count = 0 then {}
  else
    let perWriter := fun i => s.perWriter i >>> 1
    { s with
      writeCount := count
      perWriter := perWriter
      writers := (List.finRange 16).foldl
        (fun mask i => if perWriter i > 0 then mask ||| 1 <<< UInt16.ofNat i.val else mask) 0 }

/-- `tick`. -/
def tick (t : ClTracker) : ClTracker := fun i => tickSlot (t i)

end ClTracker

/-- `count_ones`. -/
def countOnes (w : UInt16) : ℕ := ((List.range 16).filter fun i => w.toNat.testBit i).length

inductive EpochClose where
  | free | realloc | schism
deriving DecidableEq, Repr

structure TypeEpoch where
  addr : UInt64
  size : UInt64
  typeName : String
  source : String
  openSeq : ℕ
  closeSeq : ℕ
  closeReason : EpochClose
deriving DecidableEq, Repr

/-- A ring of the last `cap` closed epochs. -/
structure TypeEpochLog where
  buf : List TypeEpoch := []
  cap : ℕ := 65536
  head : ℕ := 0

/-- `close_epoch`. -/
def TypeEpochLog.closeEpoch (log : TypeEpochLog) (e : TypeEpoch) : TypeEpochLog :=
  { log with
    buf := if log.buf.length < log.cap then log.buf ++ [e] else log.buf.set log.head e
    head := (log.head + 1) % log.cap }

inductive ViolationKind where
  | interstitial | spanning
deriving DecidableEq, Repr

structure TypeViolation where
  kind : ViolationKind
  writeAddr : UInt64
  writeSize : UInt32
  baseAddr : UInt64
  offset : UInt64
  typeName : String
  expectedField : Option String
  expectedSize : Option UInt64
  pc : UInt64
deriving DecidableEq, Repr

/-- How far a write of this size may run past the type's end: vector stores over tail padding. -/
def maxTail (writeSize : UInt32) : UInt64 :=
  if writeSize ≥ 64 then 56 else if writeSize ≥ 32 then 24 else if writeSize ≥ 16 then 8 else 0

/-- `check_write`: the violation a write makes of the projected type's fields. -/
def checkWrite (addr : UInt64) (size : UInt32) (p : TypeProjection) (pc : UInt64) :
    Option TypeViolation :=
  let offset := addr - p.baseAddr
  let writeEnd := offset + size.toUInt64
  let fields := p.typeInfo.fields
  let violation (kind : ViolationKind) (field : Option FieldInfo) : TypeViolation :=
    ⟨kind, addr, size, p.baseAddr, offset, p.typeInfo.name, field.map FieldOf.name,
      field.map FieldOf.byteSize, pc⟩
  if fields.isEmpty then none
  else
    match fields.find? fun f => f.covers offset with
    | some f =>
        let fieldEnd := f.byteOffset + f.byteSize
        let coalesced := fields.any fun nf =>
          nf.byteOffset ≥ fieldEnd && nf.byteOffset + nf.byteSize ≥ writeEnd
        let tailSpill := !coalesced && writeEnd ≤ p.typeInfo.byteSize + maxTail size &&
          writeEnd > p.typeInfo.byteSize
        if writeEnd > fieldEnd ∧ ¬coalesced ∧ ¬tailSpill then some (violation .spanning (some f))
        else none
    | none =>
        if writeEnd ≤ p.typeInfo.byteSize then none else some (violation .interstitial none)

inductive HazardKind where
  | outOfBounds | heapHole
deriving DecidableEq, Repr

structure HeapHazard where
  kind : HazardKind
  writeAddr : UInt64
  writeSize : UInt32
  allocBase : UInt64
  allocSize : UInt64
  overflowBytes : UInt64
  typeName : Option String
  fieldName : Option String
  pc : UInt64
  regSnapshot : Option (RegIdx → UInt64)

/-- `checked_add`. -/
def checkedAdd (a b : UInt64) : Option UInt64 :=
  if a.toNat + b.toNat < 2 ^ 64 then some (a + b) else none

/-- The address lies between the first tracked block and the end of the last. -/
def HeapAllocTracker.spans (t : HeapAllocTracker) (addr : UInt64) : Bool :=
  match t.allocs.entries.head?, t.allocs.entries.getLast? with
  | some first, some last => addr ≥ first.1 && addr < last.1 + last.2.size
  | _, _ => false

/-- `check_write_bounds`. -/
def HeapAllocTracker.checkWriteBounds (t : HeapAllocTracker) (addr : UInt64) (size : UInt32)
    (stm : ShadowTypeMap) : Option HeapHazard :=
  match checkedAdd addr size.toUInt64 with
  | none => none
  | some writeEnd =>
      match t.containingAlloc addr with
      | some (base, allocSize) =>
          let allocEnd := saturatingAdd base allocSize
          if writeEnd > allocEnd then
            let sym := stm.covering addr
            some {
              kind := .outOfBounds
              writeAddr := addr
              writeSize := size
              allocBase := base
              allocSize := allocSize
              overflowBytes := writeEnd - allocEnd
              typeName := sym.map fun p => p.typeInfo.name
              fieldName := sym.bind fun p =>
                (p.typeInfo.fields.find? fun f => f.byteOffset == addr - p.baseAddr).map FieldOf.name
              pc := 0
              regSnapshot := none }
          else none
      | none =>
          if t.spans addr then
            some {
              kind := .heapHole
              writeAddr := addr
              writeSize := size
              allocBase := 0
              allocSize := 0
              overflowBytes := 0
              typeName := (stm.covering addr).map fun p => p.typeInfo.name
              fieldName := none
              pc := 0
              regSnapshot := none }
          else none

structure World where
  nodes : NodeId → Option Node := fun _ => none
  edges : NodeId → Option PointerEdge := fun _ => none
  insnCounter : ℕ := 0
  regs : RegIdx → UInt64 := fun _ => 0
  clTracker : ClTracker := fun _ => {}
  stm : ShadowTypeMap := {}
  heapAllocs : HeapAllocTracker := {}
  hazards : List HeapHazard := []
  violations : List TypeViolation := []
  typeEpochs : TypeEpochLog := {}
  lastAllocEventCount : ℕ := 0
  totalEventCount : ℕ := 0
  unknownEventKinds : ℕ := 0

namespace World

/-- The node's id belongs to a frame's local. -/
def isLocalOf (fid : FrameId) : NodeId → Bool
  | .local f _ => f == fid
  | _ => false

def nodeExists (w : World) (id : NodeId) : Bool := (w.nodes id).isSome

/-- `ensure_node`: a node that exists stays as it is. -/
def ensureNode (w : World) (id : NodeId) (name : String) (typeInfo : TypeInfo)
    (addr size : UInt64) : World :=
  if w.nodeExists id then w
  else
    let node : Node := { name := name, typeInfo := typeInfo, addr := addr, size := size }
    { w with nodes := Function.update w.nodes id (some node) }

/-- `remove_node`. -/
def removeNode (w : World) (id : NodeId) : World :=
  { w with nodes := Function.update w.nodes id none, edges := Function.update w.edges id none }

/-- `update_value`. -/
def updateValue (w : World) (id : NodeId) (value : UInt64) : World :=
  match w.nodes id with
  | some n =>
      let n := { n with rawValue := value, lastWriteInsn := w.insnCounter }
      { w with nodes := Function.update w.nodes id (some n) }
  | none => w

/-- `remove_frame_nodes`: the nodes of a frame, their edges and the edges to them. -/
def removeFrameNodes (w : World) (fid : FrameId) : World :=
  let dead (id : NodeId) : Bool := isLocalOf fid id && w.nodeExists id
  { w with
    nodes := fun id => if dead id then none else w.nodes id
    edges := fun id => if dead id then none else (w.edges id).filter fun e => !dead e.target }

/-- `update_edge`: no edge for null, a dangling one for an unknown target. -/
def updateEdge (w : World) (source : NodeId) (target : Option NodeId) (ptrValue : UInt64) : World :=
  let edge : Option PointerEdge :=
    match target with
    | some t => some ⟨source, t, ptrValue, false⟩
    | none => if ptrValue = 0 then none else some ⟨source, .global (-1), ptrValue, true⟩
  { w with edges := Function.update w.edges source edge }

/-- Keep at most 128 violations. -/
def recordViolation (w : World) (v : TypeViolation) : World :=
  { w with violations := if w.violations.length < 128 then w.violations ++ [v] else w.violations }

end World

end Rtmap.Engine
