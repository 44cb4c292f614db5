import Rtmap.Lib.FlatJson
import Rtmap.Lib.TextLines
import Mathlib.Data.Finset.Insert

/-!
# The checker's graph

The checker rebuilds what a run did from the lines of its topology stream: the books of
allocations, stamps, links and hazards in their order, and the maps that the assertions
look things up in.
-/
namespace Rtmap.Check
open Rtmap.Str Rtmap.FlatJson

structure AllocEvent where
  seq : ℕ
  addr : UInt64
  size : ℕ
  freed : Bool
  freeSeq : ℕ
deriving DecidableEq, Repr

structure StampEvent where
  seq : ℕ
  addr : UInt64
  typeName : String
  typeSize : UInt64
  source : String
  fields : ℕ
deriving DecidableEq, Repr

structure LinkEvent where
  seq : ℕ
  fromName : String
  fromAddr : UInt64
  toAddr : UInt64
  pointeeType : String
  edge : String
deriving DecidableEq, Repr

structure HazardEvent where
  seq : ℕ
  kind : String
  writeAddr : UInt64
  writeSize : UInt32
  allocBase : UInt64
  allocSize : ℕ
  overflow : ℕ
  typeName : String
  fieldName : String
deriving DecidableEq, Repr

structure Summary where
  totalEvents : ℕ := 0
  nodes : ℕ := 0
  edges : ℕ := 0
  stmProjections : ℕ := 0
  liveAllocs : ℕ := 0
  hazards : ℕ := 0
deriving DecidableEq, Repr

structure TopoGraph where
  allocs : List AllocEvent := []
  stamps : List StampEvent := []
  links : List LinkEvent := []
  hazards : List HazardEvent := []
  summary : Summary := {}
  addrType : UInt64 → Option String := fun _ => none
  typeAddrs : String → Finset UInt64 := fun _ => ∅
  edges : UInt64 × String → Option UInt64 := fun _ => none
  sourceTargets : String → Option UInt64 := fun _ => none

section Json

/-- The escapes that the reader undoes. -/
def unescape (raw : Text) : Text := replace ['\\', 'n'] ['\n'] (replace ['\\', '"'] ['"'] raw)

def jsonStr (line : Text) (key : String) : String :=
  match readRaw key.toList line with
  | some raw => String.ofList (unescape raw)
  | none => ""

def jsonU64 (line : Text) (key : String) : ℕ :=
  match readDigits key.toList line with
  | some digits => (parse digits).getD 0
  | none => 0

def jsonHex (line : Text) (key : String) : UInt64 :=
  let s := (jsonStr line key).toList
  let hex := (s.dropPrefix? ['0', 'x']).getD s
  UInt64.ofNat ((fromStrRadix 16 hex).getD 0)

end Json

/-- What one line says. -/
inductive Record where
  | alloc (seq : ℕ) (addr : UInt64) (size : ℕ)
  | free (seq : ℕ) (addr : UInt64)
  | stamp (s : StampEvent)
  | link (l : LinkEvent)
  | hazard (h : HazardEvent)
  | summary (s : Summary)
  | other
deriving DecidableEq, Repr

def readRecord (line : Text) : Record :=
  let ty := jsonStr line "type"
  if ty = "ALLOC" then
    .alloc (jsonU64 line "seq") (jsonHex line "addr") (jsonU64 line "size")
  else if ty = "FREE" then
    .free (jsonU64 line "seq") (jsonHex line "addr")
  else if ty = "STAMP" then
    .stamp {
      seq := jsonU64 line "seq"
      addr := jsonHex line "addr"
      typeName := jsonStr line "type_name"
      typeSize := UInt64.ofNat (jsonU64 line "type_size")
      source := jsonStr line "source"
      fields := jsonU64 line "fields" }
  else if ty = "LINK" then
    .link {
      seq := jsonU64 line "seq"
      fromName := jsonStr line "from"
      fromAddr := jsonHex line "from_addr"
      toAddr := jsonHex line "to_addr"
      pointeeType := jsonStr line "pointee_type"
      edge := jsonStr line "edge" }
  else if ty = "HAZARD" then
    .hazard {
      seq := jsonU64 line "seq"
      kind := jsonStr line "kind"
      writeAddr := jsonHex line "write_addr"
      writeSize := UInt32.ofNat (jsonU64 line "write_size")
      allocBase := jsonHex line "alloc_base"
      allocSize := jsonU64 line "alloc_size"
      overflow := jsonU64 line "overflow"
      typeName := jsonStr line "type_name"
      fieldName := jsonStr line "field_name" }
  else if ty = "SUMMARY" then
    .summary {
      totalEvents := jsonU64 line "total_events"
      nodes := jsonU64 line "nodes"
      edges := jsonU64 line "edges"
      stmProjections := jsonU64 line "stm_projections"
      liveAllocs := jsonU64 line "live_allocs"
      hazards := jsonU64 line "hazards" }
  else .other

/-- The first allocation of the block that is not freed yet becomes freed. -/
def freeFirst (addr : UInt64) (freeSeq : ℕ) : List AllocEvent → List AllocEvent
  | [] => []
  | a :: as =>
      if a.addr = addr ∧ a.freed = false then { a with freed := true, freeSeq } :: as
      else a :: freeFirst addr freeSeq as

/-- The last allocation of the block that is not freed yet becomes freed. -/
def freeLast (addr : UInt64) (freeSeq : ℕ) (as : List AllocEvent) : List AllocEvent :=
  (freeFirst addr freeSeq as.reverse).reverse

namespace TopoGraph

/-- The object stamped last whose range covers the address. -/
def resolveBase (g : TopoGraph) (fieldAddr : UInt64) : Option UInt64 :=
  (g.stamps.reverse.find? fun s =>
    fieldAddr ≥ s.addr ∧ fieldAddr < s.addr + s.typeSize).map fun s => s.addr

def add (g : TopoGraph) : Record → TopoGraph
  | .alloc seq addr size =>
      { g with allocs := g.allocs ++ [⟨seq, addr, size, false, 0⟩] }
  | .free seq addr =>
      { g with
        allocs := freeLast addr seq g.allocs
        addrType := Function.update g.addrType addr none }
  | .stamp s =>
      { g with
        addrType := Function.update g.addrType s.addr (some s.typeName)
        typeAddrs := Function.update g.typeAddrs s.typeName
          (insert s.addr (g.typeAddrs s.typeName))
        sourceTargets := Function.update g.sourceTargets s.source (some s.addr)
        stamps := g.stamps ++ [s] }
  | .link l =>
      { g with
        edges := Function.update g.edges ((g.resolveBase l.fromAddr).getD l.fromAddr, l.edge)
          (some l.toAddr)
        links := g.links ++ [l] }
  | .hazard h => { g with hazards := g.hazards ++ [h] }
  | .summary s => { g with summary := s }
  | .other => g

def readLine (g : TopoGraph) (line : Text) : TopoGraph :=
  let line := trim line
  if line = [] then g else g.add (readRecord line)

def ofRecords (rs : List Record) : TopoGraph := rs.foldl add {}

/-- The graph of a file, unless one of its lines is not UTF-8. -/
def build (file : Text.Bytes) : Option TopoGraph :=
  (Text.lines file).foldlM (fun g line => (Text.decode line).map fun s => g.readLine s.toList) {}

end TopoGraph

end Rtmap.Check
