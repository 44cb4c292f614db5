import Mathlib.Data.Finset.Card
import Mathlib.Data.Finset.Range
import Rtmap.Engine.LastStamp

/-!
# The warm scan

`WarmScanner` finds the types of blocks whose events were missed: it reads the
pointer fields of the globals from the target's memory and goes on breadth first
from the addresses found, which it stamps. `seed` queues what the globals point
to and `step` works on the queue; the visited addresses stay over all passes.
`Emits` says what a scan of fields queues.
-/
namespace Rtmap.Engine

def WARM_SCAN_QUEUE_CAP : ℕ := 50000

/-- A struct type that embeds another one at an offset. -/
structure ContainerOfEntry where
  containerType : String
  fieldName : String
  fieldOffset : UInt64

/-- What a pass reads: the target's memory, its address ranges, the live blocks and
the containers of each embedded type. -/
structure WarmView where
  mem : ShadowTypeMap.Memory
  oracle : HeapOracle
  allocs : HeapAllocTracker
  containerOf : String → List ContainerOfEntry

/-- A queued address with the type and the source to stamp it with and its depth. -/
structure WarmItem where
  addr : UInt64
  typeInfo : TypeInfo
  source : String
  depth : ℕ

structure WarmScanStats where
  reads : ℕ := 0
  readErrors : ℕ := 0
  queueCapHits : ℕ := 0

structure WarmScanner where
  maxDepth : ℕ
  queue : List WarmItem := []
  visited : List UInt64 := []
  stats : WarmScanStats := {}
  passes : ℕ := 0
  seeded : Bool := false

/-- The scan's own lines of the topology stream. -/
inductive ColdLine where
  | link (fromName : String) (fromAddr toAddr : UInt64) (pointeeType edgeField : String)
  | stamp (addr : UInt64) (typeName : String) (typeSize : UInt64) (source : String)
      (fieldCount depth : ℕ)
deriving DecidableEq, Repr

/-- What `scan_ptr_fields` changes. -/
structure PtrScan where
  queue : List WarmItem
  stats : WarmScanStats
  stm : ShadowTypeMap
  cold : List ColdLine := []

namespace PtrScan

def push (item : WarmItem) (s : PtrScan) : PtrScan := { s with queue := s.queue ++ [item] }

def countRead (s : PtrScan) : PtrScan :=
  { s with stats := { s.stats with reads := s.stats.reads + 1 } }

def countError (s : PtrScan) : PtrScan :=
  { s with stats := { s.stats with readErrors := s.stats.readErrors + 1 } }

def countCapHit (s : PtrScan) : PtrScan :=
  { s with stats := { s.stats with queueCapHits := s.stats.queueCapHits + 1 } }

/-- Queue an item unless its address was visited or the queue is full. -/
def offer (visited : List UInt64) (item : WarmItem) (s : PtrScan) : PtrScan :=
  if item.addr ∉ visited ∧ s.queue.length < WARM_SCAN_QUEUE_CAP then s.push item
  else if s.queue.length ≥ WARM_SCAN_QUEUE_CAP then s.countCapHit
  else s

/-- The container around an embedded struct that a pointer leads to. -/
def containerItem (registry : Registry) (ptr : UInt64) (qualified : String) (depth : ℕ)
    (e : ContainerOfEntry) : Option WarmItem :=
  if ptr - e.fieldOffset ≠ 0 ∧ HeapOracle.isPlausiblePtr (ptr - e.fieldOffset) then
    (registry e.containerType).map fun ti =>
      ⟨ptr - e.fieldOffset, ti,
        qualified ++ "->container_of(" ++ e.containerType ++ "." ++ e.fieldName ++ ")", depth⟩
  else none

/-- Queue the containers until the queue is full. -/
def offerContainers (registry : Registry) (visited : List UInt64) (ptr : UInt64)
    (qualified : String) (depth : ℕ) : List ContainerOfEntry → PtrScan → PtrScan
  | [], s => s
  | e :: es, s =>
      if s.queue.length ≥ WARM_SCAN_QUEUE_CAP then s.countCapHit
      else
        offerContainers registry visited ptr qualified depth es
          (match containerItem registry ptr qualified depth e with
          | some item => if item.addr ∈ visited then s else s.push item
          | none => s)

/-- The slot of a pointer array: what it points to, one level deeper. -/
def slotItem (inner : TypeInfo) (qualified : String) (depth i : ℕ) (elem : UInt64) :
    Option WarmItem :=
  if elem ≠ 0 ∧ HeapOracle.isPlausiblePtr elem then
    some ⟨elem, inner, qualified ++ "[" ++ toString i ++ "]", depth + 1⟩
  else none

/-- Queue what the slots of the array at `ptr` point to, up to the first unreadable one. -/
def offerSlots (view : WarmView) (visited : List UInt64) (ptr : UInt64) (inner : TypeInfo)
    (qualified : String) (depth : ℕ) : List ℕ → PtrScan → PtrScan
  | [], s => s
  | i :: is, s =>
      match view.mem (ptr + UInt64.ofNat i * 8) with
      | none => s.countError
      | some elem =>
          offerSlots view visited ptr inner qualified depth is
            (match slotItem inner qualified depth i elem with
            | some item => s.countRead.offer visited item
            | none => s.countRead)

/-- The slots to read at an address: of the block there, else sixteen of the heap's. -/
def slotLimit (view : WarmView) (ptr : UInt64) : ℕ :=
  match view.allocs.allocSize ptr with
  | some size => min (size.toNat / 8) 128
  | none => if view.oracle.isHeap ptr then 16 else 0

/-- The name a pointer type points to. -/
def pointeeName (f : FieldInfo) : String := (stripPointer f.typeInfo.name).getD ""

/-- The pointee type with a size: as the registry has it, else as the field has it. -/
def pointee (registry : Registry) (f : FieldInfo) : Option TypeInfo :=
  ((registry (pointeeName f)).orElse fun _ =>
    (f.typeInfo.fields.find? fun sf => sf.name == "<pointee>").map FieldOf.typeInfo).filter
      fun ti => ti.byteSize > 0

/-- The element type where a pointer field holds the address of a pointer array. -/
def element (registry : Registry) (f : FieldInfo) : Option TypeInfo :=
  (stripPointer (pointeeName f)).bind registry

/-- A heap address gets its element type registered. -/
def registerIndirect (view : WarmView) (ptr : UInt64) (inner : TypeInfo) (s : PtrScan) : PtrScan :=
  if view.oracle.isHeap ptr then
    { s with stm := { s.stm with indirect := Function.update s.stm.indirect ptr (some inner) } }
  else s

/-- A pointer other than null that was read from the field. -/
def follow (view : WarmView) (registry : Registry) (visited : List UInt64) (source : String)
    (depth : ℕ) (f : FieldInfo) (faddr ptr : UInt64) (s : PtrScan) : PtrScan :=
  let qualified := source ++ "." ++ f.name
  match pointee registry f with
  | some ti =>
      let s := { s with cold := s.cold ++ [.link source faddr ptr (pointeeName f) f.name] }
      (offerContainers registry visited ptr qualified depth (view.containerOf (pointeeName f))
        s).offer visited ⟨ptr, ti, qualified, depth⟩
  | none =>
      match element registry f with
      | some inner =>
          offerSlots view visited ptr inner qualified depth (List.range (slotLimit view ptr))
            (registerIndirect view ptr inner s)
      | none => s

/-- A pointer field of eight bytes. -/
def scanPointer (view : WarmView) (registry : Registry) (visited : List UInt64) (source : String)
    (depth : ℕ) (f : FieldInfo) (faddr : UInt64) (s : PtrScan) : PtrScan :=
  match view.mem faddr with
  | none => s.countError
  | some ptr =>
      if ptr = 0 then s.countRead
      else follow view registry visited source depth f faddr ptr s.countRead

/-- The field is read as a pointer. -/
def isLink (f : FieldInfo) : Bool := f.typeInfo.isPointer && f.byteSize == 8

/-- The field is a struct whose fields are scanned in its place. -/
def isEmbedded (f : FieldInfo) : Bool := !f.typeInfo.isPointer && !f.typeInfo.fields.isEmpty

/-- `scan_ptr_fields`, with `levels` left of the eight (`depth` 0 to 7). The limit on
the reads is the largest number and stops no scan. -/
def scanPtrFields (view : WarmView) (registry : Registry) (visited : List UInt64) :
    ℕ → UInt64 → List FieldInfo → String → ℕ → PtrScan → PtrScan
  | 0, _, _, _, _, s => s
  | levels + 1, base, fields, source, depth, s =>
      fields.foldl (fun s f =>
        if f.name = "<pointee>" then s
        else if isLink f then
          scanPointer view registry visited source depth f (base + f.byteOffset) s
        else if isEmbedded f && depth ≤ 6 then
          scanPtrFields view registry visited levels (base + f.byteOffset) f.typeInfo.fields
            (source ++ "." ++ f.name) (depth + 1) s
        else s) s

section Items
variable (view : WarmView) (registry : Registry)

/-- The slots that can be read. -/
def slotItems (ptr : UInt64) (inner : TypeInfo) (qualified : String) (depth : ℕ) :
    List ℕ → List WarmItem
  | [] => []
  | i :: is =>
      match view.mem (ptr + UInt64.ofNat i * 8) with
      | none => []
      | some elem =>
          (slotItem inner qualified depth i elem).toList ++ slotItems ptr inner qualified depth is

/-- The items that a pointer other than null leads to. -/
def followItems (source : String) (depth : ℕ) (f : FieldInfo) (ptr : UInt64) : List WarmItem :=
  let qualified := source ++ "." ++ f.name
  match pointee registry f with
  | some ti =>
      (view.containerOf (pointeeName f)).filterMap (containerItem registry ptr qualified depth) ++
        [⟨ptr, ti, qualified, depth⟩]
  | none =>
      match element registry f with
      | some inner => slotItems view ptr inner qualified depth (List.range (slotLimit view ptr))
      | none => []

def pointerItems (source : String) (depth : ℕ) (f : FieldInfo) (faddr : UInt64) : List WarmItem :=
  match view.mem faddr with
  | none => []
  | some ptr => if ptr = 0 then [] else followItems view registry source depth f ptr

/-- The items that the fields of an object lead to, whether visited or not. -/
def fieldItems : ℕ → UInt64 → List FieldInfo → String → ℕ → List WarmItem
  | 0, _, _, _, _ => []
  | levels + 1, base, fields, source, depth =>
      fields.flatMap fun f =>
        if f.name = "<pointee>" then []
        else if isLink f then pointerItems view registry source depth f (base + f.byteOffset)
        else if isEmbedded f && depth ≤ 6 then
          fieldItems levels (base + f.byteOffset) f.typeInfo.fields (source ++ "." ++ f.name)
            (depth + 1)
        else []

end Items

/-- From `s` to `s'` the unvisited ones of the items are queued in their order, unless
the queue was full, and no projection changes. -/
structure Emits (visited : List UInt64) (items : List WarmItem) (s s' : PtrScan) : Prop where
  hits : s.stats.queueCapHits ≤ s'.stats.queueCapHits
  queue : s'.stats.queueCapHits = s.stats.queueCapHits →
    s'.queue = s.queue ++ items.filter fun c => c.addr ∉ visited
  map : s'.stm.map = s.stm.map

section Emits
variable {visited : List UInt64} {items items' : List WarmItem} {s s' s'' : PtrScan}

theorem Emits.nil (hhits : s'.stats.queueCapHits = s.stats.queueCapHits)
    (hqueue : s'.queue = s.queue) (hmap : s'.stm.map = s.stm.map) : Emits visited [] s s' :=
  ⟨hhits.ge, fun _ => by rw [hqueue, List.filter_nil, List.append_nil], hmap⟩

theorem Emits.refl (s : PtrScan) : Emits visited [] s s := .nil rfl rfl rfl

theorem Emits.trans (h : Emits visited items s s') (k : Emits visited items' s' s'') :
    Emits visited (items ++ items') s s'' where
  hits := h.hits.trans k.hits
  queue hsame := by
    have hfirst := h.hits
    have hsecond := k.hits
    rw [k.queue (by omega), h.queue (by omega), List.filter_append, List.append_assoc]
  map := k.map.trans h.map

theorem emits_capHit : Emits visited items s s.countCapHit where
  hits := Nat.le_succ _
  queue hsame := absurd hsame (Nat.succ_ne_self _)
  map := rfl

theorem emits_push {item : WarmItem} (h : item.addr ∉ visited) :
    Emits visited [item] s (s.push item) where
  hits := Nat.le_refl _
  queue _ := by
    rw [List.filter_singleton, decide_eq_true h]
    rfl
  map := rfl

theorem emits_visited {item : WarmItem} (h : item.addr ∈ visited) : Emits visited [item] s s where
  hits := Nat.le_refl _
  queue _ := by
    rw [List.filter_singleton, decide_eq_false (not_not.mpr h)]
    exact (List.append_nil _).symm
  map := rfl

theorem emits_offer (item : WarmItem) : Emits visited [item] s (s.offer visited item) := by
  rw [offer]
  split
  · rename_i h
    exact emits_push h.1
  · rename_i h
    split
    · exact emits_capHit
    · rename_i hroom
      refine emits_visited (not_not.mp fun hnew => h ⟨hnew, Nat.lt_of_not_le hroom⟩)

theorem Emits.foldl {f : PtrScan → FieldInfo → PtrScan} {found : FieldInfo → List WarmItem}
    (h : ∀ s x, Emits visited (found x) s (f s x)) (fields : List FieldInfo) (s : PtrScan) :
    Emits visited (fields.flatMap found) s (fields.foldl f s) := by
  induction fields generalizing s with
  | nil => exact .refl s
  | cons x fields ih => exact (h s x).trans (ih (f s x))

variable (view : WarmView) (registry : Registry)

theorem emits_offerContainers (ptr : UInt64) (qualified : String) (depth : ℕ)
    (es : List ContainerOfEntry) (s : PtrScan) :
    Emits visited (es.filterMap (containerItem registry ptr qualified depth)) s
      (offerContainers registry visited ptr qualified depth es s) := by
  induction es generalizing s with
  | nil => exact .refl s
  | cons e es ih =>
      rw [offerContainers]
      split
      · exact emits_capHit
      · cases he : containerItem registry ptr qualified depth e with
        | none =>
            rw [List.filterMap_cons_none he]
            exact ih s
        | some item =>
            rw [List.filterMap_cons_some he]
            dsimp only
            split
            · rename_i hvisited
              exact (emits_visited hvisited).trans (ih s)
            · rename_i hnew
              exact (emits_push hnew).trans (ih (s.push item))

theorem emits_offerSlots (ptr : UInt64) (inner : TypeInfo) (qualified : String) (depth : ℕ)
    (is : List ℕ) (s : PtrScan) :
    Emits visited (slotItems view ptr inner qualified depth is) s
      (offerSlots view visited ptr inner qualified depth is s) := by
  induction is generalizing s with
  | nil => exact .refl s
  | cons i is ih =>
      rw [offerSlots, slotItems]
      cases view.mem (ptr + UInt64.ofNat i * 8) with
      | none => exact .nil rfl rfl rfl
      | some elem =>
          have hread : Emits visited [] s s.countRead := .nil rfl rfl rfl
          dsimp only
          cases slotItem inner qualified depth i elem with
          | none => exact hread.trans (ih s.countRead)
          | some item => exact (hread.trans (emits_offer item)).trans (ih _)

theorem emits_follow (source : String) (depth : ℕ) (f : FieldInfo) (faddr ptr : UInt64)
    (s : PtrScan) : Emits visited (followItems view registry source depth f ptr) s
      (follow view registry visited source depth f faddr ptr s) := by
  rw [followItems, follow]
  cases pointee registry f with
  | some ti =>
      let linked : PtrScan :=
        { s with cold := s.cold ++ [.link source faddr ptr (pointeeName f) f.name] }
      have hlinked : Emits visited [] s linked := .nil rfl rfl rfl
      exact hlinked.trans
        ((emits_offerContainers registry ptr _ depth _ linked).trans (emits_offer _))
  | none =>
      cases element registry f with
      | none => exact .refl s
      | some inner =>
          have hregister : Emits visited [] s (registerIndirect view ptr inner s) := by
            rw [registerIndirect]
            split
            · exact .nil rfl rfl rfl
            · exact .refl s
          exact hregister.trans (emits_offerSlots view ptr inner _ depth _ _)

theorem emits_scanPointer (source : String) (depth : ℕ) (f : FieldInfo) (faddr : UInt64)
    (s : PtrScan) : Emits visited (pointerItems view registry source depth f faddr) s
      (scanPointer view registry visited source depth f faddr s) := by
  rw [pointerItems, scanPointer]
  cases view.mem faddr with
  | none => exact .nil rfl rfl rfl
  | some ptr =>
      have hread : Emits visited [] s s.countRead := .nil rfl rfl rfl
      dsimp only
      split
      · exact hread
      · exact hread.trans (emits_follow view registry source depth f faddr ptr s.countRead)

theorem emits_scanPtrFields (levels : ℕ) (base : UInt64) (fields : List FieldInfo)
    (source : String) (depth : ℕ) (s : PtrScan) :
    Emits visited (fieldItems view registry levels base fields source depth) s
      (scanPtrFields view registry visited levels base fields source depth s) := by
  induction levels generalizing base fields source depth s with
  | zero => exact .refl s
  | succ levels ih =>
      rw [fieldItems, scanPtrFields]
      refine Emits.foldl (fun s f => ?_) fields s
      split
      · exact .refl s
      · split
        · exact emits_scanPointer view registry source depth f _ s
        · split
          · exact ih _ _ _ _ s
          · exact .refl s

end Emits

end PtrScan

/-- The engine's stores that a pass changes, with the scanner and its lines. -/
structure WarmState where
  scanner : WarmScanner
  info : DwarfInfo
  world : World
  topo : Topology
  cold : List ColdLine := []

namespace WarmState

/-- Scan the fields of an object and take over what the scan changed. -/
def scanFields (view : WarmView) (base : UInt64) (ti : TypeInfo) (source : String) (depth : ℕ)
    (s : WarmState) : WarmState :=
  let r := PtrScan.scanPtrFields view s.info.typeRegistry s.scanner.visited 8 base ti.fields source
    depth ⟨s.scanner.queue, s.scanner.stats, s.world.stm, s.cold⟩
  { s with
    scanner := { s.scanner with queue := r.queue, stats := r.stats }
    world := { s.world with stm := r.stm }
    cold := r.cold }

/-- The DWARF data that `seed` prepares: the types of the globals materialized, each
global with the deeper of its types, shallow fields patched. -/
def prepare (host : Host) (info : DwarfInfo) : DwarfInfo :=
  let names := info.globals.map fun g => g.typeInfo.name
  let info := names.foldl (fun i n => i.ensureType host.deep n) info
  { info with globals := info.globals.map fun g =>
      let ti :=
        match info.typeRegistry g.typeInfo.name with
        | some fresh => if fresh.fields.length > g.typeInfo.fields.length then fresh else g.typeInfo
        | none => g.typeInfo
      { g with typeInfo := host.patch info.typeRegistry ti } }

/-- `seed`: queue what the globals point to. -/
def seed (host : Host) (view : WarmView) (delta : UInt64) (s : WarmState) : WarmState :=
  let info := prepare host s.info
  let s := info.globals.foldl (fun s g => scanFields view (g.addr + delta) g.typeInfo g.name 1 s)
    { s with info := info }
  { s with scanner := { s.scanner with seeded := true, passes := s.scanner.passes + 1 } }

/-- A shallow type or one without fields is materialized and patched. -/
def materialize (host : Host) (info : DwarfInfo) (ti : TypeInfo) : DwarfInfo × TypeInfo :=
  if ti.shallow || ti.fields.isEmpty then
    let info := info.ensureType host.deep ti.name
    let ti :=
      match info.typeRegistry ti.name with
      | some fresh => if fresh.fields.length > ti.fields.length then fresh else ti
      | none => ti
    (info, host.patch info.typeRegistry ti)
  else (info, ti)

/-- A displaced projection: a schism closes the epoch of a tracked block, the reuse of
a pool is a line only. -/
def report (item : WarmItem) (r : StampResult) (s : WarmState) : WarmState :=
  let close (old : OldStamp) (reason : CloseReason) : Line :=
    .typeEpochClose 0 item.addr old.type old.source old.stampSeq 0 reason
  match r with
  | .schism old =>
      let log :=
        match s.world.heapAllocs.allocSize item.addr with
        | some size => s.world.typeEpochs.closeEpoch
            ⟨item.addr, size, old.type, old.source, old.stampSeq, 0, .schism⟩
        | none => s.world.typeEpochs
      let schism : Line :=
        .typeSchism 0 item.addr old.type item.typeInfo.name old.source item.source
      { s with
        world := { s.world with typeEpochs := log }
        topo := (s.topo.emit schism).emit (close old .schism) }
  | .poolReuse old => { s with topo := s.topo.emit (close old .poolReuse) }
  | _ => s

/-- What a pass's retrospective scans read: memory and no heap graph. -/
def scanSource (view : WarmView) (info : DwarfInfo) : ShadowTypeMap.ScanSource :=
  ⟨{}, view.allocs, info.typeRegistry, some view.mem⟩

/-- After an applied stamp: replay the deferred writes and write the stamp's line. -/
def replay (item : WarmItem) (r : StampResult) (s : WarmState) : WarmState :=
  if r.applied then
    { s with
      world := { s.world with
        stm := s.world.stm.replayDeferred s.info.typeRegistry s.world.heapAllocs }
      cold := s.cold ++ [.stamp item.addr item.typeInfo.name item.typeInfo.byteSize item.source
        item.typeInfo.fields.length item.depth] }
  else s

/-- Scan from an address whose type has pointer fields. -/
def rescan (view : WarmView) (item : WarmItem) (s : WarmState) : WarmState :=
  if item.typeInfo.fields.any PtrScan.isLink then
    { s with world := { s.world with
        stm := s.world.stm.retrospectiveScan (scanSource view s.info) item.addr 0 } }
  else s

/-- Stamp an address with the number 0, which displaces no numbered stamp. -/
def stamp (view : WarmView) (item : WarmItem) (s : WarmState) : WarmState :=
  let r := s.world.stm.stampType item.addr item.typeInfo item.source 0
  rescan view item
    (replay item r.2 (report item r.2 { s with world := { s.world with stm := r.1 } }))

/-- The visit of an address: its stamp and its fields. -/
def visit (view : WarmView) (item : WarmItem) (s : WarmState) : WarmState :=
  scanFields view item.addr item.typeInfo item.source (item.depth + 1)
    (stamp view item { s with scanner := { s.scanner with
      visited := item.addr :: s.scanner.visited } })

/-- The loop of `step`: an item that the budget stops goes back to the front. -/
def stepLoop (host : Host) (view : WarmView) (budget start : ℕ) : ℕ → WarmState → WarmState
  | 0, s => s
  | rounds + 1, s =>
      match s.scanner.queue with
      | [] => s
      | item :: queue =>
          let r := materialize host s.info item.typeInfo
          let item := { item with typeInfo := r.2 }
          let popped := { s with info := r.1, scanner := { s.scanner with queue := queue } }
          if s.scanner.stats.reads - start ≥ budget then
            { popped with scanner := { s.scanner with queue := item :: queue } }
          else if item.depth > s.scanner.maxDepth ∨ item.addr ∈ s.scanner.visited then
            stepLoop host view budget start rounds popped
          else stepLoop host view budget start rounds (visit view item popped)

/-- `step`. Enough rounds let the loop end, `exists_ended`. -/
def step (host : Host) (view : WarmView) (budget rounds : ℕ) (s : WarmState) : WarmState :=
  stepLoop host view budget s.scanner.stats.reads rounds s

section Visit
variable {host : Host} {view : WarmView} {item : WarmItem} {s : WarmState} {a : UInt64}

/-- The address has a projection. -/
def Projected (s : WarmState) (a : UInt64) : Prop := (s.world.stm.lookup a).isSome

theorem report_frame (item : WarmItem) (r : StampResult) (s : WarmState) :
    (report item r s).scanner = s.scanner ∧ (report item r s).info = s.info ∧
      (report item r s).world.stm = s.world.stm := by
  cases r with
  | schism old => exact ⟨rfl, rfl, rfl⟩
  | poolReuse old => exact ⟨rfl, rfl, rfl⟩
  | stamped => exact ⟨rfl, rfl, rfl⟩
  | restamped => exact ⟨rfl, rfl, rfl⟩
  | rejected => exact ⟨rfl, rfl, rfl⟩

theorem replay_frame (item : WarmItem) (r : StampResult) (s : WarmState) :
    (replay item r s).scanner = s.scanner ∧ (replay item r s).info = s.info := by
  rw [replay]
  split <;> exact ⟨rfl, rfl⟩

theorem rescan_frame (view : WarmView) (item : WarmItem) (s : WarmState) :
    (rescan view item s).scanner = s.scanner ∧ (rescan view item s).info = s.info := by
  rw [rescan]
  split <;> exact ⟨rfl, rfl⟩

theorem stamp_frame (view : WarmView) (item : WarmItem) (s : WarmState) :
    (stamp view item s).scanner = s.scanner ∧ (stamp view item s).info = s.info := by
  let r := s.world.stm.stampType item.addr item.typeInfo item.source 0
  let stamped : WarmState := { s with world := { s.world with stm := r.1 } }
  let reported := report item r.2 stamped
  obtain ⟨hscanner, hinfo, -⟩ := report_frame item r.2 stamped
  obtain ⟨hscanner', hinfo'⟩ := replay_frame item r.2 reported
  obtain ⟨hscanner'', hinfo''⟩ := rescan_frame view item (replay item r.2 reported)
  exact ⟨hscanner''.trans (hscanner'.trans hscanner), hinfo''.trans (hinfo'.trans hinfo)⟩

theorem projected_replay (item : WarmItem) (r : StampResult) (h : Projected s a) :
    Projected (replay item r s) a := by
  rw [replay]
  split
  · exact ShadowTypeMap.isSome_replayDeferred _ _ h
  · exact h

theorem projected_rescan (h : Projected s a) : Projected (rescan view item s) a := by
  obtain ⟨p, hp⟩ := Option.isSome_iff_exists.mp h
  rw [rescan]
  split
  · exact Option.isSome_iff_exists.mpr ⟨p, ShadowTypeMap.lookup_retrospectiveScan _ _ _ hp⟩
  · exact h

/-- What is projected when the stamp is made stays projected. -/
theorem projected_stamp_of
    (h : ((s.world.stm.stampType item.addr item.typeInfo item.source 0).1.lookup a).isSome) :
    Projected (stamp view item s) a := by
  let r := s.world.stm.stampType item.addr item.typeInfo item.source 0
  let stamped : WarmState := { s with world := { s.world with stm := r.1 } }
  have hreported : Projected (report item r.2 stamped) a := by
    rw [Projected, (report_frame item r.2 stamped).2.2]
    exact h
  exact projected_rescan (projected_replay item r.2 hreported)

theorem projected_stamp (h : Projected s a) : Projected (stamp view item s) a := by
  refine projected_stamp_of ?_
  rcases ShadowTypeMap.stampType_cases s.world.stm item.addr item.typeInfo item.source 0 with
    ⟨hsame, -⟩ | ⟨hmap, -⟩
  · rw [hsame]
    exact h
  · rw [ShadowTypeMap.lookup, hmap, SortedMap.get?_insert]
    split
    · rfl
    · exact h

/-- An address other than null gets a projection of a type with a size, or has one. -/
theorem projected_stamped (haddr : item.addr ≠ 0) (hsize : item.typeInfo.byteSize ≠ 0) :
    Projected (stamp view item s) item.addr := by
  cases hold : s.world.stm.lookup item.addr with
  | some p => exact projected_stamp (by rw [Projected, hold]; rfl)
  | none =>
      refine projected_stamp_of ?_
      rw [ShadowTypeMap.lookup] at hold
      rw [ShadowTypeMap.stampType, if_neg (by simp [haddr, hsize]), hold]
      simp [ShadowTypeMap.lookup, ShadowTypeMap.project]

/-- A scan of fields queues unvisited items and changes no projection. -/
theorem scanFields_frame (view : WarmView) (base : UInt64) (ti : TypeInfo) (source : String)
    (depth : ℕ) (s : WarmState) :
    let found := PtrScan.fieldItems view s.info.typeRegistry 8 base ti.fields source depth
    let after := scanFields view base ti source depth s
    after.info = s.info ∧ after.scanner.visited = s.scanner.visited ∧
      after.scanner.maxDepth = s.scanner.maxDepth ∧ (∀ a, Projected after a ↔ Projected s a) ∧
      s.scanner.stats.queueCapHits ≤ after.scanner.stats.queueCapHits ∧
      (after.scanner.stats.queueCapHits = s.scanner.stats.queueCapHits →
        after.scanner.queue = s.scanner.queue ++
          found.filter fun c => c.addr ∉ s.scanner.visited) := by
  have hemits : PtrScan.Emits s.scanner.visited _ _ _ := PtrScan.emits_scanPtrFields view
    s.info.typeRegistry 8 base ti.fields source depth
    ⟨s.scanner.queue, s.scanner.stats, s.world.stm, s.cold⟩
  refine ⟨rfl, rfl, rfl, fun a => ?_, hemits.hits, hemits.queue⟩
  rw [Projected, Projected, ShadowTypeMap.lookup, ShadowTypeMap.lookup]
  exact iff_of_eq (congrArg (fun m : SortedMap UInt64 TypeProjection => (m.get? a).isSome = true)
    hemits.map)

theorem heapAllocs_visit (view : WarmView) (item : WarmItem) (s : WarmState) :
    (visit view item s).world.heapAllocs = s.world.heapAllocs := by
  have hreport (r : StampResult) (s : WarmState) :
      (report item r s).world.heapAllocs = s.world.heapAllocs := by
    cases r <;> rfl
  have hreplay (r : StampResult) (s : WarmState) :
      (replay item r s).world.heapAllocs = s.world.heapAllocs := by
    rw [replay]
    split <;> rfl
  have hrescan (s : WarmState) : (rescan view item s).world.heapAllocs = s.world.heapAllocs := by
    rw [rescan]
    split <;> rfl
  change (stamp view item _).world.heapAllocs = _
  rw [stamp, hrescan, hreplay, hreport]

/-- A visit marks and stamps its address and queues what its fields lead to. -/
theorem visit_frame (view : WarmView) (item : WarmItem) (s : WarmState) :
    let found := PtrScan.fieldItems view s.info.typeRegistry 8 item.addr item.typeInfo.fields
      item.source (item.depth + 1)
    let after := visit view item s
    after.info = s.info ∧ after.scanner.visited = item.addr :: s.scanner.visited ∧
      after.scanner.maxDepth = s.scanner.maxDepth ∧ (∀ a, Projected s a → Projected after a) ∧
      (item.addr ≠ 0 → item.typeInfo.byteSize ≠ 0 → Projected after item.addr) ∧
      s.scanner.stats.queueCapHits ≤ after.scanner.stats.queueCapHits ∧
      (after.scanner.stats.queueCapHits = s.scanner.stats.queueCapHits →
        after.scanner.queue = s.scanner.queue ++
          found.filter fun c => c.addr ∉ item.addr :: s.scanner.visited) := by
  let marked : WarmState := { s with scanner := { s.scanner with
    visited := item.addr :: s.scanner.visited } }
  obtain ⟨hscanner, hinfo⟩ := stamp_frame view item marked
  obtain ⟨hinfo', hvisited, hmax, hprojected, hhits, hqueue⟩ := scanFields_frame view item.addr
    item.typeInfo item.source (item.depth + 1) (stamp view item marked)
  rw [hinfo] at hinfo' hqueue
  rw [hscanner] at hvisited hmax hhits hqueue
  exact ⟨hinfo', hvisited, hmax, fun a ha => (hprojected a).mpr (projected_stamp (s := marked) ha),
    fun haddr hsize => (hprojected _).mpr (projected_stamped haddr hsize), hhits, hqueue⟩

end Visit

end WarmState

/-- The item with its type materialized. -/
def deepItem (host : Host) (s : WarmState) (item : WarmItem) : WarmItem :=
  { item with typeInfo := (WarmState.materialize host s.info item.typeInfo).2 }

/-- The stores with the item's type materialized and another queue. -/
def withQueue (host : Host) (s : WarmState) (item : WarmItem) (queue : List WarmItem) :
    WarmState :=
  { s with
    info := (WarmState.materialize host s.info item.typeInfo).1
    scanner := { s.scanner with queue := queue } }

end Rtmap.Engine
