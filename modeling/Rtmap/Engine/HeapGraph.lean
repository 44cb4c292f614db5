import Rtmap.Engine.Types

/-!
# Heap classification and the heap graph

`HeapOracle` excludes modules and stacks from the user address range. `HeapGraph`
rebuilds objects from the write stream: a write into a known object updates one
of its fields, any other write may found an object from the recent writes near it.
-/
namespace Rtmap.Engine

/-- Module ranges, disjoint and in address order, and the stack bounds of each thread. -/
structure HeapOracle where
  moduleRanges : List (UInt64 × UInt64) := []
  stackBounds : List (UInt16 × UInt64 × UInt64) := []

namespace HeapOracle

/-- `add_module`: a module that starts within or right after the last range extends it. -/
def addModule (o : HeapOracle) (base size : UInt64) : HeapOracle :=
  if size = 0 then o
  else
    let hi := saturatingAdd base size
    match o.moduleRanges.getLast? with
    | some last =>
        if base ≤ last.2 then
          { o with moduleRanges := o.moduleRanges.dropLast ++ [(last.1, max last.2 hi)] }
        else { o with moduleRanges := o.moduleRanges ++ [(base, hi)] }
    | none => { o with moduleRanges := [(base, hi)] }

/-- `update_stack`: widen the thread's bounds to `[rsp, rsp + 128 KiB)`. -/
def updateStack (o : HeapOracle) (tid : UInt16) (rsp : UInt64) : HeapOracle :=
  let old := ((o.stackBounds.find? fun b => b.1 = tid).map Prod.snd).getD (rsp, rsp)
  let bounds := (min old.1 rsp, max old.2 (saturatingAdd rsp (128 * 1024)))
  { o with stackBounds := (tid, bounds) :: o.stackBounds.filter fun b => b.1 ≠ tid }

def inUserRange (addr : UInt64) : Bool := addr ≥ 0x1000 && addr < 0x0100000000000000

def isPlausiblePtr (val : UInt64) : Bool := inUserRange val

/-- `is_heap`: the binary search over disjoint ranges finds the one that holds the address. -/
def isHeap (o : HeapOracle) (addr : UInt64) : Bool :=
  !(o.moduleRanges.any fun r => addr ≥ r.1 && addr < r.2) &&
    !(o.stackBounds.any fun b => addr ≥ b.2.1 && addr < b.2.2) && inUserRange addr

end HeapOracle

structure HeapFieldInfo where
  size : UInt32
  lastValue : UInt64
  isPointer : Bool
  lastSeq : ℕ
deriving DecidableEq, Repr

structure HeapEdge where
  sourceAddr : UInt64
  targetAddr : UInt64
  fieldOffset : UInt64
  lastSeq : ℕ
deriving DecidableEq, Repr

structure HeapObject where
  baseAddr : UInt64
  inferredSize : UInt64
  fields : SortedMap UInt64 HeapFieldInfo
  outgoingEdges : List HeapEdge
  firstSeq : ℕ
  lastSeq : ℕ

structure RecentWrite where
  addr : UInt64
  size : UInt32
  value : UInt64
  seq : ℕ

def CLUSTER_WINDOW : ℕ := 64
def CLUSTER_RADIUS : UInt64 := 256
def MIN_CLUSTER_WRITES : ℕ := 3

structure HeapGraph where
  objects : SortedMap UInt64 HeapObject := SortedMap.empty
  addrToBase : UInt64 → Option UInt64 := fun _ => none
  recentWrites : List RecentWrite := []

namespace HeapGraph

/-- Take an object out, with the addresses of its fields. -/
def removeObject (g : HeapGraph) (base : UInt64) : HeapGraph :=
  match g.objects.get? base with
  | none => g
  | some obj =>
      { g with
        objects := g.objects.erase base
        addrToBase := obj.fields.keys.foldl
          (fun m off => Function.update m (base + off) none) g.addrToBase }

/-- `on_free`: the objects whose base lies in the range go. -/
def onFree (g : HeapGraph) (addr size : UInt64) : HeapGraph :=
  ((g.objects.range addr (saturatingAdd addr size)).map Prod.fst).foldl removeObject g

/-- `gc_stale`. -/
def gcStale (g : HeapGraph) (currentSeq maxAge : ℕ) : HeapGraph :=
  ((g.objects.entries.filter fun e => e.2.lastSeq < currentSeq - maxAge).map Prod.fst).foldl
    removeObject g

/-- `find_object_base`: by recorded field address, else the object that starts
last at or below the address, if it spans it. -/
def findObjectBase (g : HeapGraph) (addr : UInt64) : Option UInt64 :=
  match g.addrToBase addr with
  | some base => some base
  | none =>
      match g.objects.floor addr with
      | some (base, obj) => if addr < obj.baseAddr + obj.inferredSize then some base else none
      | none => none

def isPtr (w : RecentWrite) : Bool := w.size == 8 && HeapOracle.isPlausiblePtr w.value

/-- What a write leaves in the field it hits. -/
def fieldOf (w : RecentWrite) (old : Option HeapFieldInfo) : HeapFieldInfo where
  size := (old.map HeapFieldInfo.size).getD w.size
  lastValue := w.value
  isPointer := isPtr w
  lastSeq := w.seq

def recordField (base : UInt64) (fields : SortedMap UInt64 HeapFieldInfo) (w : RecentWrite) :
    SortedMap UInt64 HeapFieldInfo :=
  fields.insert (w.addr - base) (fieldOf w (fields.get? (w.addr - base)))

/-- `update_edge`: retarget the field's edge or add one. -/
def updateEdge (edges : List HeapEdge) (offset source target : UInt64) (seq : ℕ) : List HeapEdge :=
  match edges.findIdx? fun e => e.fieldOffset = offset with
  | some i => edges.modify i fun e => { e with targetAddr := target, lastSeq := seq }
  | none => edges ++ [⟨source, target, offset, seq⟩]

/-- A write into the object at `base`. -/
def writeObject (base : UInt64) (w : RecentWrite) (obj : HeapObject) : HeapObject :=
  { obj with
    fields := recordField base obj.fields w
    lastSeq := w.seq
    outgoingEdges :=
      if isPtr w ∧ w.value ≠ 0 then
        updateEdge obj.outgoingEdges (w.addr - base) w.addr w.value w.seq
      else obj.outgoingEdges }

/-- `abs_diff`. -/
def absDiff (a b : UInt64) : UInt64 := if a ≤ b then b - a else a - b

/-- The edges of a new object: its non-null pointer fields. -/
def initialEdges (base : UInt64) (fields : SortedMap UInt64 HeapFieldInfo) : List HeapEdge :=
  (fields.entries.filter fun f => f.2.isPointer && f.2.lastValue != 0).map fun f =>
    ⟨base + f.1, f.2.lastValue, f.1, f.2.lastSeq⟩

/-- The object founded by a cluster of writes around the last of them. -/
def foundObject (base : UInt64) (cluster : List RecentWrite) (seq : ℕ) : HeapObject :=
  let top := (cluster.map fun w => w.addr + w.size.toUInt64).foldl max 0
  let fields := cluster.foldl (recordField base) SortedMap.empty
  { baseAddr := base
    inferredSize := max (top - base) 8
    fields := fields
    outgoingEdges := initialEdges base fields
    firstSeq := (cluster.map RecentWrite.seq).foldl min seq
    lastSeq := seq }

/-- Push to the window of the last 64 writes. -/
def pushRecent (recent : List RecentWrite) (w : RecentWrite) : List RecentWrite :=
  let all := recent ++ [w]
  if all.length > CLUSTER_WINDOW then all.drop 1 else all

/-- The writes of the window within the cluster radius of an address. -/
def nearby (recent : List RecentWrite) (addr : UInt64) : List RecentWrite :=
  recent.filter fun w => absDiff w.addr addr ≤ CLUSTER_RADIUS

/-- `process_write`. -/
def processWrite (g : HeapGraph) (w : RecentWrite) : HeapGraph :=
  let recent := pushRecent g.recentWrites w
  let g := { g with recentWrites := recent }
  match g.findObjectBase w.addr with
  | some base =>
      match g.objects.get? base with
      | some obj => { g with objects := g.objects.insert base (writeObject base w obj) }
      | none => g
  | none =>
      let cluster := nearby recent w.addr
      if cluster.length < MIN_CLUSTER_WRITES then g
      else
        let base := (cluster.map RecentWrite.addr).foldl min w.addr
        if g.objects.contains base then g
        else
          { g with
            objects := g.objects.insert base (foundObject base cluster w.seq)
            addrToBase := cluster.foldl (fun m c => Function.update m c.addr (some base))
              g.addrToBase }

end HeapGraph

end Rtmap.Engine
